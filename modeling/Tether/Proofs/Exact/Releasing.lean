import Mathlib.Data.List.Find
import Tether.Proofs.Exact.Removal

/-!
# Removal keeps a solver sound

Once the equation of a constraint is out, its references are taken back.  A
variable that nothing refers to any more loses its symbol and its row, and the
equations that are left do not notice.  Lowering the objective then makes the
solver sound again.
-/

namespace Tether

open Simplex

section Current

variable {c d : Constraint Rat} {edits edits' : OrderedMap Variable (Edit Rat)}

/-- A constraint that none of the edits left out holds asks for the same. -/
theorem Constraint.current_of_filter {p : Variable × Edit Rat → Bool}
    (he : edits'.entries = edits.entries.filter p)
    (hp : ∀ e ∈ edits.entries, p e = false → (e.2.constraint == d) = false) :
    d.current edits' = d.current edits := by
  have hfind : edits'.entries.find? (fun e => e.2.constraint == d) =
      edits.entries.find? (fun e => e.2.constraint == d) := by
    rw [he, List.find?_filter]
    refine List.find?_congr (fun e hm => ?_)
    cases hpe : p e with
    | true => simp
    | false => simp [hp e hm hpe]
  unfold current
  rw [hfind]

theorem Constraint.current_release (hd : (d == c) = false) :
    d.current (edits.filter (fun _ edit => !(edit.constraint == c))) = d.current edits := by
  refine current_of_filter rfl (fun e _ hp => ?_)
  have hc : e.2.constraint.content = c.content := beq_iff.mp (by simpa using hp)
  rw [← Bool.not_eq_true, beq_iff, hc, eq_comm, ← beq_iff, hd]
  exact Bool.false_ne_true

/-- Ending an edit concerns the constraint that held it. -/
theorem Constraint.current_erase (hk : edits.keys.Nodup) {v : Variable} {edit : Edit Rat}
    (hv : edits.get? v = some edit) (hd : (d == edit.constraint) = false) :
    d.current (edits.erase v) = d.current edits := by
  refine current_of_filter (OrderedMap.entries_erase hk v) (fun e he hp => ?_)
  have hev : e.1 = v := by simpa using hp
  have hedit : edits.get? v = some e.2 := by
    rw [OrderedMap.get?_eq_some_iff hk, ← hev]
    exact he
  obtain rfl : edit = e.2 := Option.some.inj (hv.symm.trans hedit)
  rw [Constraint.beq_comm]
  exact hd

theorem demands_congr {l : List (Constraint Rat × Tag)}
    (h : ∀ e ∈ l, e.1.current edits' = e.1.current edits) : demands edits' l = demands edits l :=
  List.map_congr_left (fun e he => by rw [h e he])

end Current

namespace Solver

variable {s u : Solver Rat} {σ : Symbol → Rat} {v w : Variable}
  {l : List (Constraint Rat × Tag)}

/-- What a solver models depends on its rows and on the symbols of the
variables alone. -/
theorem Standing.congr (h : s.Standing l) (ht : u.tableau = s.tableau)
    (ho : u.objective = s.objective) (ha : u.artificial = s.artificial)
    (hi : u.infeasible = s.infeasible) (hr : u.read = s.read) : u.Standing l := by
  obtain ⟨⟨hp, hrows, hobj, hart⟩, hf, hsolves, hpenalty⟩ := h
  refine ⟨⟨⟨?_, ?_, ?_, ?_⟩, ?_, ?_, ?_⟩, ?_, ?_, ?_⟩
  · exact ht ▸ hp.rows
  · exact ht ▸ ho ▸ hp.objective
  · exact ht ▸ ha ▸ hp.artificial
  · exact ht ▸ hi ▸ hp.infeasible
  · exact ht ▸ hrows
  · exact ho ▸ hobj
  · exact ha ▸ hart
  · unfold Feasible
    exact ht ▸ hf
  · exact ht ▸ hr ▸ hsolves
  · exact ht ▸ ho ▸ hpenalty

section References

variable {demand : Variable → Nat}

/-- Counting a reference leaves the symbols of the variables. -/
theorem symbol_countReference (m : OrderedMap Variable (VariableEntry Rat)) (f : Nat → Nat)
    (t : Term Rat) (v : Variable) : ((countReference f m t).get? v).map (·.symbol) =
      (m.get? v).map (·.symbol) := by
  unfold countReference
  split
  · rfl
  · exact OrderedMap.map_get?_modify (by exact fun _ => rfl) _ _ _

theorem read_countReference (s : Solver Rat) (f : Nat → Nat) (t : Term Rat) :
    Solver.read { s with unknowns := countReference f s.unknowns t } = s.read := by
  funext σ v
  have hsymbol := congrArg (fun a : Option Symbol => (a.map σ).getD 0)
    (symbol_countReference s.unknowns f t v)
  simpa only [read, Option.map_map, Function.comp_def] using hsymbol

/-- Forgetting a variable leaves the values of the others. -/
theorem read_erase {t : Tableau Rat} (hc : Counted t s.unknowns demand) {entry : VariableEntry Rat}
    (hw : s.unknowns.get? w = some entry) (hv : v ≠ w) (a : Rat) :
    Solver.read { s with unknowns := s.unknowns.erase w } σ v =
      s.read (Function.update σ entry.symbol a) v := by
  unfold read
  rw [OrderedMap.get?_erase_of_ne hc.keys hv]
  cases hg : s.unknowns.get? v with
  | none => rfl
  | some other =>
      refine (Function.update_of_ne ?_ a σ).symm
      intro he
      have hm := (OrderedMap.get?_eq_some_iff hc.keys).mp hg
      have hm' := (OrderedMap.get?_eq_some_iff hc.keys).mp hw
      exact hv (congrArg Prod.fst (List.inj_on_of_nodup_map hc.distinct hm hm' he))

/-- The symbol of a variable is in no tag. -/
theorem notMem_symbols_of_get? {t : Tableau Rat} (hc : Counted t s.unknowns demand)
    (hf : ∀ e ∈ l, e.2.Fits e.1) {entry : VariableEntry Rat}
    (hv : s.unknowns.get? v = some entry) : ∀ e ∈ l, entry.symbol ∉ e.2.symbols := by
  intro e he hx
  have htier : entry.symbol.tier = 2 :=
    congrArg SymbolKind.tier (hc.symbols _ ((OrderedMap.get?_eq_some_iff hc.keys).mp hv)).2
  have := (hf e he).tier_le hx
  omega

/-- Constraints that do not use a variable say the same without it, whatever value its
symbol has. -/
theorem Employs.balances_erase_iff {t : Tableau Rat} (h : s.Employs l)
    (hc : Counted t s.unknowns demand) (hf : ∀ e ∈ l, e.2.Fits e.1) {entry : VariableEntry Rat}
    (hv : s.unknowns.get? v = some entry) (hunused : s.uses v = 0) (σ : Symbol → Rat) (a : Rat) :
    ∀ e ∈ l,
      e.2.Balances e.1 (Solver.read { s with unknowns := s.unknowns.erase v } σ) σ ↔
        e.2.Balances e.1 (s.read (Function.update σ entry.symbol a))
          (Function.update σ entry.symbol a) := by
  intro e he
  rw [Tag.balances_update (notMem_symbols_of_get? hc hf hv e he)]
  refine Tag.balances_congr (fun x hx hxz => ?_)
  have hne : x.unknown ≠ v := by
    rintro rfl
    have := h e he x hx hxz
    omega
  exact read_erase hc hv hne a

/-- Taking back a reference leaves what a solver models. -/
theorem Standing.releaseVariable {t : Term Rat} {rest : List (Term Rat)} (h : s.Standing l)
    (hr : Releasing s (t :: rest)) (he : s.Employs l) (hf : ∀ e ∈ l, e.2.Fits e.1) :
    (s.releaseVariable t).Standing l := by
  have hc := counted_release hr.counted_cons
  have hcount : Standing { s with unknowns := countReference (· - 1) s.unknowns t } l :=
    h.congr rfl rfl rfl rfl (read_countReference s _ t)
  rcases releaseVariable_cases s t with hs | ⟨entry, hget, hz, hs⟩
  · rw [hs]
    exact hcount
  · have hm := (OrderedMap.get?_eq_some_iff hc.keys).mp hget
    have hdrop := hcount.layered.dropRow entry.symbol
    have hemploys : Employs { s with unknowns := countReference (· - 1) s.unknowns t } l := he
    rw [hs]
    exact hcount.of_dropRow (hc.symbols _ hm).1
      ⟨⟨hdrop.proper.rows, hdrop.proper.objective, hdrop.proper.artificial,
        hdrop.proper.infeasible⟩, hdrop.rows, hdrop.objective, hdrop.artificial⟩
      rfl rfl (hemploys.balances_erase_iff hc hf hget (hr.uses_eq_zero hget hz))
      (notMem_symbols_of_get? (s := { s with unknowns := countReference (· - 1) s.unknowns t })
        hc hf hget)

theorem Standing.foldl_releaseVariable {before rest : List (Term Rat)} (h : s.Standing l)
    (hr : Releasing s (before ++ rest)) (he : s.Employs l) (hf : ∀ e ∈ l, e.2.Fits e.1) :
    (before.foldl Solver.releaseVariable s).Standing l := by
  induction before generalizing s with
  | nil => exact h
  | cons t before ih =>
      refine ih (h.releaseVariable hr he hf) hr.releaseVariable ?_
      intro e hel x hx hz
      rw [uses_releaseVariable]
      exact he e hel x hx hz

/-- Taking back some of the references leaves what a solver models. -/
theorem Standing.release {before rest : List (Term Rat)}
    (h : s.Standing (demands s.edits s.constraints.entries)) (hr : Releasing s (before ++ rest))
    (hu : u = before.foldl Solver.releaseVariable s) :
    Releasing u rest ∧ u.constraints = s.constraints ∧
      u.Standing (demands u.edits u.constraints.entries) := by
  obtain ⟨hrest, -, hcon, hed⟩ := hr.foldl_releaseVariable
  have hs := h.foldl_releaseVariable hr (employs_demands hr.held) (hr.tagged.wired _).fits
  rw [← hcon, ← hed] at hs
  subst hu
  exact ⟨hrest, hcon, hs⟩

end References

section Removing

variable {c installed : Constraint Rat} {tag : Tag} {edits : OrderedMap Variable (Edit Rat)}

/-- What the other constraints ask for does not change. -/
theorem demands_delist {t : Tableau Rat} {before after : List (Constraint Rat × Tag)}
    (h : Tagged t (before ++ (installed, tag) :: after))
    (hcur : ∀ d : Constraint Rat, (d == installed) = false →
      d.current s.edits = d.current edits) :
    demands (s.edits.filter (fun _ edit => !(edit.constraint == installed)))
      (before ++ after) = demands edits (before ++ after) := by
  refine demands_congr (fun e he => ?_)
  obtain ⟨-, hafter, hbefore⟩ := List.pairwise_append.mp h.contents
  have hne : (e.1 == installed) = false := by
    rcases List.mem_append.mp he with hm | hm
    · exact hbefore e hm (installed, tag) (by simp)
    · rw [Constraint.beq_comm]
      exact (List.pairwise_cons.mp hafter).1 e hm
  rw [Constraint.current_release hne, hcur e.1 hne]

/-- A constraint taken out leaves a solver that models the others. -/
theorem Standing.detach (hl : s.Ledger) (ha : s.artificial = none)
    (h : s.Standing (demands edits s.constraints.entries))
    (hf : s.constraints.find? c = some (installed, tag))
    (hcur : ∀ d : Constraint Rat, (d == installed) = false →
      d.current s.edits = d.current edits)
    (hu : u = Solver.detach { s with constraints := s.constraints.erase c } installed tag) :
    Releasing u installed.expression.terms ∧ u.constraints = s.constraints.erase c ∧
      u.Standing (demands u.edits u.constraints.entries) := by
  obtain ⟨before, after, he, herase⟩ := OrderedMap.exists_append_of_find? hf
  have hperm : (demands edits s.constraints.entries).Perm
      ((installed.current edits, tag) :: demands edits (before ++ after)) := by
    rw [he]
    exact List.Perm.map _ List.perm_middle
  have hstart : Standing { s with constraints := s.constraints.erase c }
      ((installed.current edits, tag) :: demands edits (before ++ after)) :=
    Standing.congr ⟨h.layered, h.feasible, h.models.perm hperm⟩ rfl rfl rfl rfl rfl
  have htake := hstart.takeOut hl.counted ha ((hl.tagged.wired edits).perm hperm)
    (Constraint.strength_current installed edits).symm
  have hbooks := (hl.reworked_takeOut hf).books
  simp only [books, Prod.mk.injEq] at hbooks
  obtain ⟨-, hconstraints, -, hedits⟩ := hbooks
  have hlist : u.constraints = s.constraints.erase c := by
    rw [hu]
    exact hconstraints
  have hended : u.edits = s.edits.filter (fun _ edit => !(edit.constraint == installed)) := by
    rw [hu, Solver.detach]
    dsimp only
    rw [hedits]
  refine ⟨hu ▸ hl.releasing_detach hf, hlist, ?_⟩
  rw [hlist, hended, herase, demands_delist (he ▸ hl.tagged) hcur, hu]
  exact htake.congr rfl rfl rfl rfl rfl

/-- Uninstalling a constraint leaves a solver that models the others. -/
theorem Standing.uninstall (hl : s.Ledger) (ha : s.artificial = none)
    (h : s.Standing (demands edits s.constraints.entries))
    (hf : s.constraints.find? c = some (installed, tag))
    (hcur : ∀ d : Constraint Rat, (d == installed) = false →
      d.current s.edits = d.current edits)
    (hu : u = Solver.uninstall { s with constraints := s.constraints.erase c } installed tag) :
    u.Ledger ∧ u.constraints = s.constraints.erase c ∧
      u.Standing (demands u.edits u.constraints.entries) := by
  obtain ⟨hrel, hlist, hs⟩ := h.detach hl ha hf hcur rfl
  rw [← List.append_nil installed.expression.terms] at hrel
  obtain ⟨hrest, hcon, hstanding⟩ := hs.release hrel hu
  exact ⟨hrest.ledger, hcon.trans hlist, hstanding⟩

/-- Removing a constraint makes the solver sound, whatever an edit that has just
ended asked for. -/
theorem Standing.remove (hl : s.Ledger) (hi : s.Idle)
    (h : s.Standing (demands edits s.constraints.entries))
    (hpos : ∀ e ∈ s.constraints.entries, 0 ≤ e.1.strength.value)
    (hf : s.constraints.find? c = some (installed, tag))
    (hcur : ∀ d : Constraint Rat, (d == installed) = false →
      d.current s.edits = d.current edits) (limit : Nat) :
    Ensures (s.remove limit c) (fun p => p.2 = .ok () ∧ p.1.Sound) := by
  obtain ⟨hledger, hcon, hstanding⟩ := h.uninstall hl hi.artificial hf hcur rfl
  have hpos' : ∀ e ∈ (Solver.uninstall { s with constraints := s.constraints.erase c }
      installed tag).constraints.entries, 0 ≤ e.1.strength.value := by
    intro e he
    rw [hcon] at he
    exact hpos e (OrderedMap.mem_of_mem_erase he)
  have hquiet := removalStable_quiet.uninstall
    (s := { s with constraints := s.constraints.erase c }) hi.quiet installed tag
  unfold Solver.remove
  rw [hf]
  have hre := hstanding.reoptimize (hledger.tagged.wired _) (nonneg_demands hpos') limit
    RemoveError.internal
  refine ((hre.and (hledger.reoptimize limit RemoveError.internal)).and
    (hquiet.idle_reoptimize limit RemoveError.internal)).mono ?_
  rintro ⟨s', answer⟩ ⟨⟨⟨rfl, ho⟩, hl', hb⟩, hidle⟩
  simp only [books, Prod.mk.injEq] at hb
  obtain ⟨-, hcon', -, hed'⟩ := hb
  refine ⟨rfl, hl', hidle (fun text he => by cases he), ?_, ?_⟩
  · rw [hcon', hed']
    exact ho
  · rw [hcon']
    exact hpos'

/-- Removing a constraint does not break down, and leaves a sound solver sound. -/
theorem Sound.remove (h : s.Sound) (limit : Nat) (c : Constraint Rat) :
    Ensures (s.remove limit c) (fun p => Calm RemoveError.internal p.2 ∧ p.1.Sound) := by
  cases hf : s.constraints.find? c with
  | none =>
      unfold Solver.remove
      rw [hf]
      exact ensures_ok ⟨calm_error (fun _ he => by cases he), h⟩
  | some e =>
      exact (h.optimal.toStanding.remove h.ledger h.idle h.weights hf (fun _ _ => rfl)
        limit).mono (fun _ hp => ⟨hp.1 ▸ calm_ok _, hp.2⟩)

section Edits

variable {edit : Edit Rat}

/-- The constraint that held an edit variable is on the list. -/
theorem Sound.exists_find?_of_edit (h : s.Sound) (hv : s.edits.get? v = some edit) :
    ∃ e, s.constraints.find? edit.constraint = some e := by
  have hm := h.ledger.held.installed _ ((OrderedMap.get?_eq_some_iff h.ledger.held.keys).mp hv)
  cases hf : s.constraints.find? edit.constraint with
  | none => exact absurd (Constraint.beq_iff.mpr rfl) (List.find?_eq_none.mp hf _ hm)
  | some e => exact ⟨e, rfl⟩

theorem Sound.standing_ended (h : s.Sound) (v : Variable) :
    Standing { s with edits := s.edits.erase v } (demands s.edits s.constraints.entries) :=
  h.optimal.toStanding.congr rfl rfl rfl rfl rfl

theorem Sound.ledger_ended (h : s.Sound) (v : Variable) :
    Ledger { s with edits := s.edits.erase v } :=
  ⟨(h.standing_ended v).layered.proper, h.ledger.tagged, h.ledger.counted,
    h.ledger.held.erase v⟩

/-- Ending an edit does not change what the constraints that did not hold it ask
for. -/
theorem Sound.current_ended (h : s.Sound) (hv : s.edits.get? v = some edit)
    {e : Constraint Rat × Tag} (hf : s.constraints.find? edit.constraint = some e)
    (d : Constraint Rat) (hd : (d == e.1) = false) :
    d.current (s.edits.erase v) = d.current s.edits := by
  have hsame := (OrderedMap.mem_of_find? hf).2
  refine Constraint.current_erase h.ledger.held.keys hv ?_
  rw [← Bool.not_eq_true, Constraint.beq_iff] at hd ⊢
  rwa [← Constraint.beq_iff.mp hsame]

/-- Ending an edit does not break down, and leaves a sound solver sound. -/
theorem Sound.removeEdit (h : s.Sound) (limit : Nat) (v : Variable) :
    Ensures (s.removeEdit limit v) (fun p => Calm EditError.internal p.2 ∧ p.1.Sound) := by
  refine ensures_removeEdit (fun _ => ⟨calm_error (fun _ he => by cases he), h⟩)
    (fun edit hv => ?_)
  obtain ⟨e, hf⟩ := h.exists_find?_of_edit hv
  refine ((h.standing_ended v).remove (h.ledger_ended v) ⟨h.idle.artificial, h.idle.journal,
    h.idle.infeasible⟩ h.weights hf (h.current_ended hv hf) limit).mono
      (fun p hp => ⟨?_, hp.2⟩)
  rw [hp.1]
  exact calm_ok _

end Edits

end Removing

end Solver
end Tether
