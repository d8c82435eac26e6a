import Tether.Proofs.Exact.Independence
import Tether.Proofs.Exact.Runs
import Tether.Proofs.Solver.Intact

/-!
# Symbols that occur nowhere

If the constraints do not depend on a symbol, then a solution stays a solution
whatever value the symbol has, and the objective stays the same.  Such a symbol
has no row, and no row and not the objective mentions it: rows without zero
cells depend on every symbol in them.

So a removed constraint leaves no symbol of its own behind, and a variable that
nothing refers to any more is in no row when it is forgotten.
-/

namespace Tether

open Simplex

/-- A row does not mention a symbol that it does not depend on. -/
theorem Simplex.Row.notMem_of_eval_update {r : Row Rat} {σ : Symbol → Rat} {x : Symbol}
    (ho : r.Ordered) (hr : r.Reduced)
    (h : r.eval (Function.update σ x (σ x + 1)) = r.eval σ) : x ∉ r.symbols := by
  intro hx
  rw [ho.eval_update] at h
  exact hr.coefficient_ne_zero hx (by linarith)

namespace Solver

section Absence

/-- The symbol has no row, and neither a row nor the objective mentions it. -/
structure Absent {α : Type} (s : Solver α) (x : Symbol) : Prop where
  row : s.tableau.row? x = none
  rows : ∀ b ∈ s.tableau.basics, x ∉ b.2.symbols
  objective : x ∉ s.objective.symbols

variable {s u : Solver Rat} {x : Symbol} {l : List (Constraint Rat × Tag)}
  {demand : Variable → Nat}

/-- A symbol that the constraints do not depend on occurs nowhere. -/
theorem Models.absent (h : s.Models l) (hl : s.Layered) (hk : s.tableau.Knows x)
    (hb : ∀ σ v, ∀ e ∈ l, e.2.Balances e.1 (s.read σ) σ →
      e.2.Balances e.1 (s.read (Function.update σ x v)) (Function.update σ x v))
    (hx : ∀ e ∈ l, x ∉ e.2.symbols) : s.Absent x := by
  obtain ⟨k, hobj⟩ := h.objective
  have hσ := hl.proper.rows.solves_fill 0
  have hsolves : s.tableau.Solves
      (Function.update (s.tableau.fill 0) x (s.tableau.fill 0 x + 1)) :=
    (h.solves _).mpr (fun e he => hb _ _ e he ((h.solves _).mp hσ e he))
  have hrow : s.tableau.row? x = none := by
    -- the row of a symbol determines its value, which may be any
    by_contra hbasic
    obtain ⟨r, hr⟩ := Option.ne_none_iff_exists'.mp hbasic
    have hm := Tableau.mem_basics_iff.mpr ⟨hk, hr⟩
    have hmoved := hsolves _ hm
    rw [Function.update_self, (hl.proper.rows.admits hm).eval_update hbasic, ← hσ _ hm]
      at hmoved
    linarith
  refine ⟨hrow, fun b hm => ?_, ?_⟩
  · refine Row.notMem_of_eval_update (hl.ordered hm) (hl.rows b hm).reduced ?_
      (σ := s.tableau.fill 0)
    rw [← hsolves b hm, ← hσ b hm]
    exact Function.update_of_ne (Tableau.ne_of_mem_basics hrow hm) _ _
  · refine Row.notMem_of_eval_update hl.proper.objective.ordered
      hl.objective.reduced ?_ (σ := s.tableau.fill 0)
    rw [hobj _ hsolves, hobj _ hσ, penalty_update hx]

/-- A symbol of no constraint occurs nowhere. -/
theorem Models.absent_of_notMem (h : s.Models l) (hl : s.Layered) (hk : s.tableau.Knows x)
    (hc : Counted s.tableau s.unknowns demand) (ht : x.tier ≤ 1)
    (hx : ∀ e ∈ l, x ∉ e.2.symbols) : s.Absent x := by
  refine h.absent hl hk (fun σ v e he hb => ?_) hx
  rw [read_update hc ht]
  exact (Tag.balances_update (hx e he)).mpr hb

/-- A variable that no constraint uses occurs nowhere. -/
theorem Standing.absent_of_unused (h : s.Standing l) (hc : Counted s.tableau s.unknowns demand)
    (he : s.Employs l) (hf : ∀ e ∈ l, e.2.Fits e.1) {v : Variable} {entry : VariableEntry Rat}
    (hv : s.unknowns.get? v = some entry) (hunused : s.uses v = 0) : s.Absent entry.symbol := by
  refine h.models.absent h.layered (hc.symbols _ ((OrderedMap.get?_eq_some_iff hc.keys).mp hv)).1
    (fun σ a e hel hb => ?_) (notMem_symbols_of_get? hc hf hv)
  refine (he.balances_erase_iff hc hf hv hunused σ a e hel).mp ?_
  rw [he.balances_erase_iff hc hf hv hunused σ (σ entry.symbol) e hel, Function.update_eq_self]
  exact hb

/-- Dropping the row of a symbol that has none leaves the rows. -/
theorem Absent.row?_dropRow {α : Type} {s : Solver α} (h : s.Absent x) (y : Symbol) :
    (s.dropRow x).tableau.row? y = s.tableau.row? y := by
  have hrow : s.tableau.rowAt? x.id = none := h.row
  rw [Tableau.row?, Tableau.row?, rowAt?_dropRow]
  split
  · rename_i hid
    rw [← hid, hrow]
  · rfl

section Released

variable {t : Term Rat} {rest : List (Term Rat)}

/-- A variable whose last reference is taken back occurs nowhere. -/
theorem Standing.absent_of_released (h : s.Standing l) (hr : Releasing s (t :: rest))
    (he : s.Employs l) (hf : ∀ e ∈ l, e.2.Fits e.1) {entry : VariableEntry Rat}
    (hget : (countReference (· - 1) s.unknowns t).get? t.unknown = some entry)
    (hz : entry.references = 0) : s.Absent entry.symbol := by
  have hcount : Standing { s with unknowns := countReference (· - 1) s.unknowns t } l :=
    h.congr rfl rfl rfl rfl (read_countReference s _ t)
  obtain ⟨hrow, hrows, hobjective⟩ := hcount.absent_of_unused (counted_release hr.counted_cons)
    he hf hget (hr.uses_eq_zero hget hz)
  exact ⟨hrow, hrows, hobjective⟩

/-- Taking back a reference drops no row. -/
theorem Standing.row?_releaseVariable (h : s.Standing l) (hr : Releasing s (t :: rest))
    (he : s.Employs l) (hf : ∀ e ∈ l, e.2.Fits e.1) (y : Symbol) :
    (s.releaseVariable t).tableau.row? y = s.tableau.row? y := by
  rcases releaseVariable_cases s t with hs | ⟨entry, hget, hz, hs⟩
  · rw [hs]
  · rw [hs]
    exact (h.absent_of_released hr he hf hget hz).row?_dropRow y

end Released

end Absence

section Erasing

variable {s u : Solver Rat} {c installed : Constraint Rat} {tag : Tag} {limit : Nat}
  {answers : List (SolverAnswer Rat)} {calls : List (SolverCall Rat)}

/-- The solver during the removal of a constraint, when the references of the given
terms have been taken back. -/
def releasedAfter {α : Type} [Scalar α] (s : Solver α) (c installed : Constraint α) (tag : Tag)
    (terms : List (Term α)) : Solver α :=
  terms.foldl releaseVariable
    (detach { s with constraints := s.constraints.erase c } installed tag)

/-- A removal takes back the references of all terms and lowers the objective again. -/
theorem remove_eq (hf : s.constraints.find? c = some (installed, tag)) :
    s.remove limit c = reoptimize limit RemoveError.internal
      (s.releasedAfter c installed tag installed.expression.terms) := by
  unfold Solver.remove
  rw [hf]
  rfl

/-- All through a removal the solver models the constraints that are left. -/
theorem Sound.releasedAfter (h : s.Sound) (hf : s.constraints.find? c = some (installed, tag))
    {before rest : List (Term Rat)} (hterms : installed.expression.terms = before ++ rest)
    (hu : u = s.releasedAfter c installed tag before) :
    Releasing u rest ∧ u.Standing (demands u.edits u.constraints.entries) := by
  obtain ⟨hrel, -, hstanding⟩ :=
    h.optimal.toStanding.detach h.ledger h.idle.artificial hf (fun _ _ => rfl) rfl
  rw [hterms] at hrel
  obtain ⟨hrest, -, hs⟩ := hstanding.release hrel hu
  exact ⟨hrest, hs⟩

/-- The symbols of a removed constraint are in no other tag. -/
theorem Ledger.notMem_of_erase (h : s.Ledger)
    (hf : s.constraints.find? c = some (installed, tag)) {x : Symbol} (hx : x ∈ tag.symbols) :
    ∀ e ∈ (s.constraints.erase c).entries, x ∉ e.2.symbols := by
  obtain ⟨before, after, he, herase⟩ := OrderedMap.exists_append_of_find? hf
  have hnodup := h.tagged.disjoint
  rw [he, (List.perm_middle.flatMap_right _).nodup_iff, List.flatMap_cons] at hnodup
  intro e hm hxe
  rw [herase] at hm
  exact (List.nodup_append'.mp hnodup).2.2 hx (List.mem_flatMap.mpr ⟨e, hm, hxe⟩)

/-- After the removal of a constraint its symbols occur nowhere. -/
theorem Sound.absent_of_remove (h : s.Sound)
    (hf : s.constraints.find? c = some (installed, tag)) {answer : Except RemoveError Unit}
    (hrun : s.remove limit c = .ok (u, answer)) {x : Symbol} (hx : x ∈ tag.symbols) :
    u.Absent x := by
  have hm := (OrderedMap.mem_of_find? hf).1
  obtain ⟨-, hu⟩ := h.remove limit c _ hrun
  obtain ⟨hlist, hknows⟩ := ensures_remove_kept hf limit _ hrun
  refine hu.optimal.models.absent_of_notMem hu.optimal.layered
    (hknows x (h.ledger.tagged.knows _ hm x hx))
    hu.ledger.counted ((h.ledger.tagged.fits _ hm).tier_le hx) (fun e he => ?_)
  obtain ⟨d, hd, rfl⟩ := List.mem_map.mp he
  exact h.ledger.notMem_of_erase hf hx d (hlist ▸ hd)

/-- A sound solver has as many rows as constraints. -/
theorem Sound.length_basics (h : s.Sound) : s.tableau.basics.length = s.constraints.size := by
  rw [h.optimal.toStanding.length_basics (h.ledger.tagged.wired _) h.ledger.counted, demands,
    List.length_map, OrderedMap.size]

/-- After every run there are as many rows as installed constraints, and the removal of
one leaves no trace of it in the rows: neither of its symbols occurs anywhere, and a
variable occurs nowhere when its last reference is taken back, so that no row is
dropped with a variable. -/
theorem removal_erases_constraint (settings : Settings Rat) (limit limit' : Nat)
    (hw : ∀ call ∈ calls, call.Weighted)
    (hrun : (empty settings).run limit calls = .ok (s, answers)) :
    s.tableau.basicCount = s.constraints.size ∧
    s.tableau.basics.length = s.constraints.size ∧
    ∀ c installed tag u, s.constraints.find? c = some (installed, tag) →
      s.remove limit' c = .ok (u, .ok ()) →
        (∀ x ∈ tag.symbols, u.Absent x) ∧
        s.remove limit' c = reoptimize limit' RemoveError.internal
          (s.releasedAfter c installed tag installed.expression.terms) ∧
        ∀ before t after, installed.expression.terms = before ++ t :: after →
          ∀ w, w = s.releasedAfter c installed tag before →
            (∀ entry, (countReference (· - 1) w.unknowns t).get? t.unknown = some entry →
              entry.references = 0 → w.Absent entry.symbol) ∧
            ∀ y, (w.releaseVariable t).tableau.row? y = w.tableau.row? y := by
  have hs : s.Sound := sound_run settings limit hw _ hrun
  refine ⟨(intact_run settings limit calls _ hrun).tallied.trans hs.length_basics, hs.length_basics,
    fun c installed tag u hf hremove => ⟨fun x hx => hs.absent_of_remove hf hremove hx,
      remove_eq hf, fun before t after hterms w hu => ?_⟩⟩
  obtain ⟨hrest, hstanding⟩ := hs.releasedAfter hf hterms hu
  have hemploys : w.Employs (demands w.edits w.constraints.entries) := employs_demands hrest.held
  have hfits := (hrest.tagged.wired w.edits).fits
  exact ⟨fun entry hget hz => hstanding.absent_of_released hrest hemploys hfits hget hz,
    hstanding.row?_releaseVariable hrest hemploys hfits⟩

/-- A height follows a width that has a floor.  When it need not follow any more, it is
forgotten, and the floor keeps its row. -/
theorem removal_forgets_follower :
    ∃ (s u : Solver Rat) (answers : List (SolverAnswer Rat)) (follow installed : Constraint Rat)
      (tag : Tag) (entry : VariableEntry Rat),
      follow = ⟨"follow", ⟨[.symbolic ⟨.entity ⟨0⟩, .height⟩ 1,
        .symbolic ⟨.entity ⟨0⟩, .width⟩ (-2)], 0⟩, .equalTo, .weak⟩ ∧
      (empty .standard).run 9 [.add ⟨"floor", ⟨[.symbolic ⟨.entity ⟨0⟩, .width⟩ 1], -2⟩,
        .greaterOrEqual, .required⟩, .add follow] = .ok (s, answers) ∧
      s.tableau.basicCount = s.constraints.size ∧
      s.constraints.find? follow = some (installed, tag) ∧ tag.symbols.length = 2 ∧
      s.remove 9 follow = .ok (u, .ok ()) ∧ (∀ x ∈ tag.symbols, u.Absent x) ∧
      entry.references = 0 ∧ (s.releasedAfter follow installed tag []).Absent entry.symbol ∧
      u.hasVariable ⟨.entity ⟨0⟩, .height⟩ = false := by
  have hchain : ((empty .standard : Solver Rat).run 9 [.add ⟨"floor",
      ⟨[.symbolic ⟨.entity ⟨0⟩, .width⟩ 1], -2⟩, .greaterOrEqual, .required⟩,
      .add ⟨"follow", ⟨[.symbolic ⟨.entity ⟨0⟩, .height⟩ 1,
        .symbolic ⟨.entity ⟨0⟩, .width⟩ (-2)], 0⟩, .equalTo, .weak⟩]).toOption.any (fun p =>
      (p.1.remove 9 ⟨"follow", ⟨[.symbolic ⟨.entity ⟨0⟩, .height⟩ 1,
        .symbolic ⟨.entity ⟨0⟩, .width⟩ (-2)], 0⟩, .equalTo, .weak⟩).toOption.any (fun q =>
          decide (q.2 = .ok ()) && !q.1.hasVariable ⟨.entity ⟨0⟩, .height⟩) &&
      (p.1.constraints.find? ⟨"follow", ⟨[.symbolic ⟨.entity ⟨0⟩, .height⟩ 1,
        .symbolic ⟨.entity ⟨0⟩, .width⟩ (-2)], 0⟩, .equalTo, .weak⟩).any (fun e =>
          decide (e.2.symbols.length = 2) && decide (e.1.expression.terms =
            [.symbolic ⟨.entity ⟨0⟩, .height⟩ 1, .symbolic ⟨.entity ⟨0⟩, .width⟩ (-2)]) &&
          ((countReference (· - 1) (p.1.releasedAfter ⟨"follow",
            ⟨[.symbolic ⟨.entity ⟨0⟩, .height⟩ 1, .symbolic ⟨.entity ⟨0⟩, .width⟩ (-2)], 0⟩,
            .equalTo, .weak⟩ e.1 e.2 []).unknowns (.symbolic ⟨.entity ⟨0⟩, .height⟩ 1)).get?
              ⟨.entity ⟨0⟩, .height⟩).any (fun entry => decide (entry.references = 0)))) =
                true := by
    decide +kernel
  obtain ⟨⟨s, answers⟩, hrun, hrest⟩ := exists_ok_of_any hchain
  obtain ⟨hremove, hfind⟩ := Bool.and_eq_true_iff.mp hrest
  obtain ⟨⟨u, answer⟩, hremove, hdone⟩ := exists_ok_of_any hremove
  obtain ⟨hok, hforgotten⟩ := Bool.and_eq_true_iff.mp hdone
  obtain ⟨⟨installed, tag⟩, hf, he⟩ := (Option.any_eq_true _ _).mp hfind
  obtain ⟨he, hentry⟩ := Bool.and_eq_true_iff.mp he
  obtain ⟨hlength, hterms⟩ := Bool.and_eq_true_iff.mp he
  obtain ⟨entry, hget, hz⟩ := (Option.any_eq_true _ _).mp hentry
  obtain rfl : answer = .ok () := of_decide_eq_true hok
  obtain ⟨hcount, -, herased⟩ :=
    removal_erases_constraint .standard 9 9 (by decide +kernel) hrun
  obtain ⟨habsent, -, hreleased⟩ := herased _ _ _ _ hf hremove
  have hz : entry.references = 0 := of_decide_eq_true hz
  refine ⟨s, u, answers, _, installed, tag, entry, rfl, hrun, hcount, hf,
    of_decide_eq_true hlength, hremove, habsent, hz, ?_, by simpa using hforgotten⟩
  exact (hreleased [] _ _ (of_decide_eq_true hterms) _ rfl).1 entry hget hz

end Erasing

end Solver

end Tether
