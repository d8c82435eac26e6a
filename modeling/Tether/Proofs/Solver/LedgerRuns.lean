import Tether.Proofs.Solver.LedgerRemoval
import Tether.Proofs.Solver.Runs
import Tether.Scalar.Rational

/-!
# Every call keeps the books

Edit variables, suggestions, flushes and resets keep the ledger in order too,
so the ledger of every solver that a run reaches is in order, whatever the
answers were.  In particular its rows and its objectives are in solved form.
-/

namespace Tether
namespace Solver

open Simplex

variable {α : Type} [Scalar α] {s : Solver α}

section Editing

theorem Ledger.addEdit (h : s.Ledger) (limit : Nat) (v : Variable) (strength : Strength α) :
    Ensures (s.addEdit limit v strength) (fun p => p.1.Ledger) := by
  refine ensures_addEdit (fun _ => h) (fun _ => h) (fun hv hr => (h.add limit _).mono ?_)
  rintro p ⟨hl, -, hedits, hadded⟩
  refine ⟨fun tag hok hg => ?_, fun _ _ _ => hl, fun _ _ => hl⟩
  obtain ⟨tag', htag⟩ := hadded hok
  have hm : (holding v (s.value v) (.clip strength.value), tag') ∈ p.1.constraints.entries := by
    rw [htag]
    simp
  obtain ⟨c', hm', hc'⟩ := OrderedMap.mem_of_get? hg
  obtain ⟨-, rfl⟩ := Prod.mk.inj (hl.tagged.eq_of_beq hm' hm hc')
  refine hl.withEdits (hl.held.insert ?_ hm ⟨_, _, rfl, hr⟩)
  rwa [hedits]

theorem Ledger.removeEdit (h : s.Ledger) (limit : Nat) (v : Variable) :
    Ensures (s.removeEdit limit v) (fun p => p.1.Ledger) := by
  refine ensures_removeEdit (fun _ => h) (fun edit _ => ?_)
  exact ((h.withEdits (h.held.erase v)).remove limit _).mono (fun _ hp => hp.1)

/-- Every row is the same, or has another constant. -/
def RowsMoved (s u : Solver α) : Prop :=
  ∀ id, u.tableau.rowAt? id = s.tableau.rowAt? id ∨
    ∃ d, u.tableau.rowAt? id = (s.tableau.rowAt? id).map (·.shift d)

/-- Shifting rows keeps the solved form. -/
theorem Proper.of_shifted {u : Solver α} (h : s.Proper) (ho : u.objective = s.objective)
    (ha : u.artificial = s.artificial) (hb : u.books = s.books)
    (hk : ∀ id, u.tableau.kindAt? id = s.tableau.kindAt? id)
    (hr : RowsMoved s u) (hi : ∀ x ∈ u.infeasible, s.tableau.Knows x) : Reworked s u := by
  have hknows : ∀ y, s.tableau.Knows y → u.tableau.Knows y := by
    intro y hy
    unfold Tableau.Knows
    rw [hk]
    exact hy
  have hadmits : ∀ r, s.tableau.Admits r → u.tableau.Admits r := by
    refine fun r hr' => hr'.of_parametric (fun y _ hy => ⟨hknows y hy.1, ?_⟩)
    have hnone : s.tableau.rowAt? y.id = none := hy.2
    rcases hr y.id with he | ⟨d, he⟩
    · exact he.trans hnone
    · exact he.trans (by rw [hnone]; rfl)
  refine ⟨⟨?_, ho ▸ hadmits _ h.objective, fun r hm => hadmits r (h.artificial r (ha ▸ hm)),
    fun x hx => hknows x (hi x hx)⟩, hb, hknows⟩
  intro id r hrow
  rcases hr id with he | ⟨d, he⟩
  · exact hadmits r (h.rows id r (he ▸ hrow))
  · rw [he] at hrow
    obtain ⟨q, hq, rfl⟩ := Option.map_eq_some_iff.mp hrow
    exact hadmits _ ((h.rows id q hq).shift d)

theorem tableau_shiftRow (s : Solver α) (x : Symbol) (d : α) :
    (s.shiftRow x d).tableau = s.tableau.modify x (·.shift d) := by
  unfold shiftRow
  dsimp only
  split <;> rfl

theorem objective_shiftRow (s : Solver α) (x : Symbol) (d : α) :
    (s.shiftRow x d).objective = s.objective := by
  unfold shiftRow
  dsimp only
  split <;> rfl

theorem artificial_shiftRow (s : Solver α) (x : Symbol) (d : α) :
    (s.shiftRow x d).artificial = s.artificial := by
  unfold shiftRow
  dsimp only
  split <;> rfl

theorem books_shiftRow (s : Solver α) (x : Symbol) (d : α) :
    (s.shiftRow x d).books = s.books := by
  unfold shiftRow
  dsimp only
  split <;> rfl

theorem books_shiftEdit (s : Solver α) (tag : Tag) (delta : α) :
    (s.shiftEdit tag delta).books = s.books := by
  unfold shiftEdit
  split
  · exact books_shiftRow _ _ _
  · split
    · exact books_shiftRow _ _ _
    · rfl

/-- What is recorded after a row has been shifted. -/
theorem infeasible_shiftRow (s : Solver α) (x : Symbol) (d : α) :
    (s.shiftRow x d).infeasible =
      if (s.shiftRow x d).isInfeasible x then s.infeasible ++ [x] else s.infeasible := by
  have hrow : (s.shiftRow x d).isInfeasible x =
      isInfeasible { s with tableau := s.tableau.modify x (·.shift d) } x := by
    unfold isInfeasible
    rw [tableau_shiftRow]
  rw [hrow]
  unfold shiftRow
  dsimp only
  split <;> rfl

theorem kindAt?_shiftRow (s : Solver α) (x : Symbol) (d : α) (id : Nat) :
    (s.shiftRow x d).tableau.kindAt? id = s.tableau.kindAt? id := by
  rw [tableau_shiftRow, Tableau.kindAt?_modify]

theorem mem_basics_shiftRow {x : Symbol} {d : α} {b : Symbol × Row α} :
    b ∈ (s.shiftRow x d).tableau.basics ↔
      ∃ r, (b.1, r) ∈ s.tableau.basics ∧ b.2 = if x.id = b.1.id then r.shift d else r := by
  refine Tableau.mem_basics_of_rows (f := fun id r => if x.id = id then r.shift d else r)
    (kindAt?_shiftRow s x d) (fun id => ?_)
  rw [tableau_shiftRow, Tableau.rowAt?_modify]
  split
  · rfl
  · rw [Option.map_id']

theorem rowsMoved_shiftRow (s : Solver α) (x : Symbol) (d : α) :
    RowsMoved s (s.shiftRow x d) := by
  intro id
  rw [tableau_shiftRow, Tableau.rowAt?_modify]
  split
  · exact Or.inr ⟨d, rfl⟩
  · exact Or.inl rfl

theorem rowsMoved_shiftMentioning (s : Solver α) (x : Symbol) (delta : α) :
    RowsMoved s (s.modifyMentioning x (fun r => r.shift (delta * r.coefficient x))) := by
  intro id
  have hrow := Tableau.rowAt?_modifyMentioning_if s.tableau x
    (fun r => r.shift (delta * r.coefficient x)) id
  cases hs : s.tableau.rowAt? id with
  | none => exact Or.inl (hrow.trans (by rw [hs]; rfl))
  | some r =>
      rw [hs, Option.map_some] at hrow
      by_cases hc : r.contains x = true
      · exact Or.inr ⟨delta * r.coefficient x, hrow.trans (by rw [if_pos hc]; rfl)⟩
      · exact Or.inl (hrow.trans (by rw [if_neg hc]))

theorem Proper.reworked_shiftRow (h : s.Proper) {x : Symbol} (hx : s.tableau.Knows x) (d : α) :
    Reworked s (s.shiftRow x d) := by
  have hi : ∀ y ∈ (s.shiftRow x d).infeasible, s.tableau.Knows y := by
    rw [infeasible_shiftRow]
    split
    · intro y hy
      rcases List.mem_append.mp hy with hy | hy
      · exact h.infeasible y hy
      · rw [List.mem_singleton.mp hy]
        exact hx
    · exact h.infeasible
  exact h.of_shifted (objective_shiftRow _ _ _) (artificial_shiftRow _ _ _)
    (books_shiftRow _ _ _) (kindAt?_shiftRow _ _ _) (rowsMoved_shiftRow _ _ _) hi

theorem Proper.reworked_shiftEdit (h : s.Proper) {tag : Tag}
    (ht : ∀ x ∈ tag.symbols, s.tableau.Knows x) (delta : α) :
    Reworked s (s.shiftEdit tag delta) := by
  unfold shiftEdit
  split
  · exact h.reworked_shiftRow (ht _ (by simp [Tag.symbols])) _
  · split
    · rename_i other ho
      refine h.reworked_shiftRow (ht _ ?_) _
      simp [Tag.symbols, (Option.filter_eq_some_iff.mp ho).1]
    · exact h.of_shifted rfl rfl rfl (fun id => kindAt?_modifyMentioning s _ _ id)
        (rowsMoved_shiftMentioning s tag.marker delta)
        (fun y hy => knows_of_mem_infeasible_modifyMentioning h.infeasible hy)

/-- Dual steps work on rows only. -/
theorem ensures_dualOptimize_books (s : Solver α) (limit : Nat) :
    Ensures (s.dualOptimize limit) (fun p => p.1.books = s.books) := by
  refine ensures_iterate (I := fun u => u.books = s.books) ?_ limit rfl
  intro u hu
  unfold dualStep
  split
  · exact hu
  · dsimp only
    split
    · exact hu
    · split
      · exact hu
      · exact (books_pivot _ _ _ _).trans hu

theorem Ledger.dualOptimize (h : s.Ledger) (limit : Nat) :
    Ensures (s.dualOptimize limit) (fun p => p.1.Ledger) := by
  refine ensures_iterate (I := Ledger) ?_ limit h
  intro s hs
  have hp := dualStep_keeps_proper hs.proper
  revert hp
  unfold dualStep
  split
  · exact fun hp => hs.of_books hp rfl (fun _ hx => hx)
  · dsimp only
    split
    · exact fun hp => hs.of_books hp rfl (fun _ hx => hx)
    · split
      · exact fun hp => hs.of_books hp rfl (fun _ hx => hx)
      · exact fun hp => hs.of_books hp (books_pivot _ _ _ _)
          (fun _ hx => knows_enter.mpr (knows_dropRow.mpr hx))

theorem Ledger.suggest (h : s.Ledger) (limit : Nat) (v : Variable) (x : α) :
    Ensures (s.suggest limit v x) (fun p => p.1.Ledger) := by
  have hs := h.withEdits (h.held.suggest v x)
  refine ensures_suggest (fun _ => h) (fun _ _ _ => hs) (fun edit hg => ?_)
  obtain ⟨v', hm, -⟩ := OrderedMap.mem_of_get? hg
  have hk := h.tagged.knows _ (h.held.installed _ hm)
  have hw := hs.proper.reworked_shiftEdit hk (x - edit.constant)
  exact (hs.of_books hw.proper hw.books hw.knows).dualOptimize limit

end Editing

section Runs

theorem Ledger.addAll (h : s.Ledger) (limit : Nat) (cs : List (Constraint α)) :
    Ensures (s.addAll limit cs) (fun p => p.1.Ledger) :=
  ensures_forEach
    (fun _ hs c _ => (hs.add limit c).mono (fun _ hp => ⟨fun _ => hp.1, fun _ _ => hp.1⟩))
    (fun _ hs => hs) h

theorem Ledger.removeAll (h : s.Ledger) (limit : Nat) (cs : List (Constraint α)) :
    Ensures (s.removeAll limit cs) (fun p => p.1.Ledger) :=
  ensures_forEach
    (fun _ hs c _ => (hs.remove limit c).mono (fun _ hp => ⟨fun _ => hp.1, fun _ _ => hp.1⟩))
    (fun _ hs => hs) h

theorem Ledger.flush (h : s.Ledger) : s.flush.1.Ledger := by
  refine ⟨h.proper.of_rows rfl rfl rfl rfl, h.tagged, ?_, h.held⟩
  have hentries : ∀ e ∈ s.flush.1.unknowns.entries, ∃ d ∈ s.unknowns.entries,
      e.1 = d.1 ∧ e.2.symbol = d.2.symbol ∧ e.2.references = d.2.references := by
    intro e he
    obtain ⟨d, hd, rfl⟩ := List.mem_map.mp he
    refine ⟨d, hd, rfl, ?_, ?_⟩ <;> dsimp only <;> split <;> rfl
  have hkeys : s.flush.1.unknowns.keys = s.unknowns.keys := OrderedMap.keys_mapValues _ _
  have hsymbols : s.flush.1.unknowns.entries.map (·.2.symbol) =
      s.unknowns.entries.map (·.2.symbol) := by
    simp only [Solver.flush, markReported, OrderedMap.mapValues, List.map_map]
    refine List.map_congr_left (fun e _ => ?_)
    dsimp only [Function.comp_apply]
    split <;> rfl
  refine ⟨?_, hsymbols ▸ h.counted.distinct, hkeys ▸ h.counted.keys, ?_, ?_⟩
  · intro e he
    obtain ⟨d, hd, -, hx, -⟩ := hentries e he
    rw [hx]
    exact h.counted.symbols d hd
  · intro e he
    obtain ⟨d, hd, hv, -, hn⟩ := hentries e he
    rw [hn, hv]
    exact h.counted.references d hd
  · intro v hv
    rw [OrderedMap.contains_eq_any_keys, hkeys, ← OrderedMap.contains_eq_any_keys]
    exact h.counted.demanded v hv

/-- Every call keeps the ledger in order, whatever it answers. -/
theorem Ledger.perform (h : s.Ledger) (limit : Nat) (call : SolverCall α) :
    Ensures (s.perform limit call) (fun p => p.1.Ledger) := by
  cases call with
  | add c => exact Ensures.map ((h.add limit c).mono (fun _ hp => hp.1))
  | addAll cs => exact Ensures.map ((h.addAll limit cs).mono (fun _ hp => hp))
  | remove c => exact Ensures.map ((h.remove limit c).mono (fun _ hp => hp.1))
  | removeAll cs => exact Ensures.map ((h.removeAll limit cs).mono (fun _ hp => hp))
  | hasConstraint c => exact ensures_ok h
  | addEdit v strength => exact Ensures.map ((h.addEdit limit v strength).mono (fun _ hp => hp))
  | removeEdit v => exact Ensures.map ((h.removeEdit limit v).mono (fun _ hp => hp))
  | hasEditVariable v => exact ensures_ok h
  | hasVariable v => exact ensures_ok h
  | suggest v x => exact Ensures.map ((h.suggest limit v x).mono (fun _ hp => hp))
  | value v => exact ensures_ok h
  | flush => exact ensures_ok h.flush
  | constraints => exact ensures_ok h
  | settings => exact ensures_ok h
  | reset => exact ensures_ok (ledger_empty s.settings)

theorem Ledger.run (h : s.Ledger) (limit : Nat) (calls : List (SolverCall α)) :
    Ensures (s.run limit calls) (fun p => p.1.Ledger) :=
  (ensures_run (A := fun _ => True) limit
    (fun _ hs call _ => (hs.perform limit call).mono (fun _ hp _ => hp)) h).mono
    (fun _ hp => hp (fun _ _ => trivial))

/-- Every run ends with its ledger in order. -/
theorem ledger_run (settings : Settings α) (limit : Nat) (calls : List (SolverCall α)) :
    Ensures ((empty settings).run limit calls) (fun p => p.1.Ledger) :=
  (ledger_empty settings).run limit calls

/-- After every run, whatever the answers were and whatever the arithmetic does,
no basic symbol occurs in a row or in an objective; in particular no row mentions
the symbol that it belongs to. -/
theorem basic_symbols_occur_nowhere (settings : Settings α) (limit : Nat)
    {calls : List (SolverCall α)} {answers : List (SolverAnswer α)}
    (hrun : (empty settings).run limit calls = .ok (s, answers)) :
    (∀ x r, s.tableau.row? x = some r →
      (∀ c ∈ r.cells, s.tableau.isBasic c.1 = false) ∧ ∀ c ∈ r.cells, c.1.id ≠ x.id) ∧
    (∀ c ∈ s.objective.cells, s.tableau.isBasic c.1 = false) ∧
    ∀ r ∈ s.artificial, ∀ c ∈ r.cells, s.tableau.isBasic c.1 = false := by
  have hproper : s.Proper := (ledger_run settings limit calls _ hrun).proper
  refine ⟨fun x r hr => ⟨fun c hc => ?_, fun c hc hid => ?_⟩,
    fun c hc => hproper.objective.isBasic_eq_false hc,
    fun r hr c hc => (hproper.artificial r hr).isBasic_eq_false hc⟩
  · exact (hproper.rows x.id r hr).isBasic_eq_false hc
  · have hnot := (hproper.rows x.id r hr).isBasic_eq_false hc
    have hbasic : s.tableau.isBasic c.1 = true := by
      rw [Tableau.isBasic, Tableau.row?, hid]
      exact Option.isSome_iff_exists.mpr ⟨r, hr⟩
    rw [hnot] at hbasic
    cases hbasic

/-- A preference of negative strength lets the objective fall without bound; what
that breakdown leaves behind is in solved form. -/
theorem breakdown_leaves_solved_form :
    ∃ (s : Solver Rat) (answers : List (SolverAnswer Rat)),
      (empty .standard).run 9 [.add ⟨"odd", ⟨[.symbolic ⟨.entity ⟨0⟩, .width⟩ 1], 0⟩, .equalTo,
        ⟨-1⟩⟩] = .ok (s, answers) ∧
      (∃ a ∈ answers, a.isInternal = true) ∧ s.tableau.basicCount = 1 ∧
      ∀ c ∈ s.objective.cells, s.tableau.isBasic c.1 = false := by
  have hchain : ((empty .standard : Solver Rat).run 9 [.add ⟨"odd",
      ⟨[.symbolic ⟨.entity ⟨0⟩, .width⟩ 1], 0⟩, .equalTo, ⟨-1⟩⟩]).toOption.any
        (fun p => p.2.any (·.isInternal) && p.1.tableau.basicCount == 1) = true := by
    decide +kernel
  obtain ⟨⟨s, answers⟩, hrun, hrest⟩ := exists_ok_of_any hchain
  obtain ⟨hany, hcount⟩ := Bool.and_eq_true_iff.mp hrest
  exact ⟨s, answers, hrun, List.any_eq_true.mp hany, beq_iff_eq.mp hcount,
    (basic_symbols_occur_nowhere .standard 9 hrun).2.1⟩

end Runs

end Solver
end Tether
