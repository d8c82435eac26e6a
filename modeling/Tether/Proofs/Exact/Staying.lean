import Tether.Proofs.Exact.Editing
import Tether.Proofs.Exact.RoundTrip
import Tether.Proofs.Exact.Standstill

/-!
# Additions that move nothing

A constraint whose expression is zero at the values of the variables is met by them.  Its
row then has the constant zero, so whatever subject is chosen, and if the row is probed,
taking it in moves nothing; and as nothing is missed, the objective is still lowest, so
lowering it moves nothing either.
-/

namespace Tether
namespace Solver

open Simplex

variable {s u w : Solver Rat} {r : Row Rat} {c : Constraint Rat} {tag : Tag}
  {x : Symbol} {v : Variable}

section Variables

/-- A variable that is not known stands, once it is, for a symbol without a row. -/
theorem symbolValue_of_symbolOf {y : Variable} {entry : VariableEntry Rat}
    (hy : s.hasVariable y = false) (h : (s.symbolOf v).2.unknowns.get? y = some entry) :
    s.symbolValue entry.symbol = 0 := by
  obtain ⟨y', hm, hy'⟩ := OrderedMap.mem_of_get? h
  unfold symbolOf at hm
  split at hm
  · exact absurd hy' (List.any_eq_false.mp hy _ hm)
  · rename_i hv
    dsimp only at hm
    rw [OrderedMap.entries_insert_of_not_contains (get?_eq_none_of_contains hv)] at hm
    rcases List.mem_append.mp hm with hm | hm
    · exact absurd hy' (List.any_eq_false.mp hy _ hm)
    · cases List.mem_singleton.mp hm
      rw [symbolValue_eq]
      show ((s.tableau.rowAt? s.tableau.symbolCount).map (·.constant)).getD 0 = 0
      rw [Tableau.rowAt?_symbolCount]
      rfl

/-- A variable that is made for a term has the value of one that is not known. -/
theorem value_symbolOf (s : Solver Rat) (v : Variable) : (s.symbolOf v).2.value = s.value := by
  have hd := drafts_symbolOf s v
  funext y
  rw [← read_basic, ← read_basic, fill_zero, fill_zero, hd.symbolValue_eq]
  cases hy : s.unknowns.contains y with
  | true => exact hd.read_eq hy
  | false =>
      rw [read, read, OrderedMap.get?_eq_none_iff.mpr hy]
      cases hentry : (s.symbolOf v).2.unknowns.get? y with
      | none => rfl
      | some entry => exact symbolValue_of_symbolOf hy hentry

theorem value_addTerm (draft : Row Rat × Solver Rat) (t : Term Rat) :
    (addTerm draft t).2.value = draft.2.value := by
  unfold addTerm
  split
  · rfl
  · dsimp only
    split
    · exact value_symbolOf draft.2 t.unknown
    · exact value_symbolOf draft.2 t.unknown

theorem value_foldl_addTerm (terms : List (Term Rat)) (draft : Row Rat × Solver Rat) :
    (terms.foldl addTerm draft).2.value = draft.2.value :=
  List.foldlRecOn (motive := fun d : Row Rat × Solver Rat => d.2.value = draft.2.value) terms
    addTerm rfl (fun d hd t _ => (value_addTerm d t).trans hd)

/-- Creating a row moves nothing. -/
theorem value_createRow (s : Solver Rat) (c : Constraint Rat) :
    (s.createRow c).2.2.value = s.value := by
  have hmarkers := drafts_addMarkers (s.addTerms c).1 (s.addTerms c).2 c
  have hread := read_congr (unknowns_addMarkers (s.addTerms c).1 (s.addTerms c).2 c)
  calc (s.createRow c).2.2.value
      = (s.addTerms c).2.read (s.createRow c).2.2.symbolValue := by
        rw [← read_basic, fill_zero]
        exact congrFun hread _
    _ = (s.addTerms c).2.value := by
        rw [← read_basic, fill_zero]
        exact congrArg _ hmarkers.symbolValue_eq
    _ = s.value := value_foldl_addTerm c.expression.terms _

end Variables

section Met

variable (hs : s.Sound) (hd : Drafted s c r tag u)
include hd

/-- At the values of the symbols a new constraint misses nothing. -/
theorem Drafted.missed_eq_zero : tag.missed s.symbolValue = 0 := by
  have hzero : ∀ y ∈ tag.symbols, s.symbolValue y = 0 := fun y hy => by
    rw [← hd.drafts.symbolValue_eq]
    exact symbolValue_of_parametric (hd.parametric y hy)
  have hmissed : ∀ y ∈ tag.symbols, y.missed s.symbolValue = 0 := fun y hy => by
    rw [Symbol.missed, hzero y hy, ite_self]
  rw [Tag.missed, hmissed tag.marker (by simp [Tag.symbols])]
  cases ho : tag.other with
  | none => exact add_zero _
  | some o => exact (zero_add _).trans (hmissed o (by simp [Tag.symbols, ho]))

include hs

/-- The row of a constraint that the values meet has the constant zero. -/
theorem Drafted.constant_eq_zero (hvalue : u.value = s.value)
    (hmet : c.expression.eval s.value = 0) : r.constant = 0 := by
  have hzero : ∀ y ∈ tag.symbols, u.symbolValue y = 0 :=
    fun y hy => symbolValue_of_parametric (hd.parametric y hy)
  have hσ : s.tableau.Solves u.symbolValue := by
    rw [hd.drafts.symbolValue_eq]
    exact hs.optimal.layered.proper.solves_symbolValue
  rw [← eval_symbolValue hd.admits, hd.row _ hσ, Tag.Balances, ← fill_zero, read_basic,
    hvalue, hmet, fill_zero, hzero tag.marker (by simp [Tag.symbols])]
  cases ho : tag.other with
  | none => simp
  | some o => simp [hzero o (by simp [Tag.symbols, ho])]

/-- Once the row of a constraint that is met is taken in, the objective is lowest. -/
theorem Drafted.lowest_enlist (hpos : 0 ≤ c.strength.value) (hw : Hosts u r w)
    (hk : ∀ x, u.tableau.Knows x → w.tableau.Knows x)
    (hsame : w.symbolValue = s.symbolValue) : (w.enlist c tag).Lowest .primary := by
  have hobjective : ∀ σ, w.tableau.Solves σ →
      w.objective.eval σ = s.objective.eval σ + c.strength.value * tag.missed σ :=
    fun σ hσ => (hw.objective σ hσ).trans (hd.objective σ)
  refine ⟨w.objective, rfl, fun σ hσ hlaw => ?_⟩
  have hconstant : w.objective.constant = s.objective.constant := by
    rw [← eval_symbolValue hw.layered.proper.objective,
      hobjective _ hw.layered.proper.solves_symbolValue, hsame,
      eval_symbolValue hs.optimal.layered.proper.objective, hd.missed_eq_zero, mul_zero,
      add_zero]
  have hlaw' : s.tableau.Lawful σ := by
    have hup := fun x hx => hk x (hd.drafts.tableau.knows (x := x) hx)
    exact ⟨fun x hx => hlaw.nonneg x (hup x hx), fun x hx => hlaw.zero x (hup x hx)⟩
  have hmin := hs.optimal.settled.constant_le hs.optimal.layered.proper.objective
    hs.optimal.layered.objective hlaw'
  have hmissed := mul_nonneg hpos
    (Tag.missed_nonneg (fun x hx => hk x (hd.parametric x hx).1) hlaw)
  rw [hconstant, hobjective σ hσ]
  linarith

/-- Installing a constraint that is met moves nothing. -/
theorem Drafted.symbolValue_install (hpos : 0 ≤ c.strength.value) (hw : Hosts u r w)
    (hk : ∀ x, u.tableau.Knows x → w.tableau.Knows x)
    (hsame : w.symbolValue = s.symbolValue) (limit : Nat) :
    Ensures (install limit w c tag) (fun p => p.1.symbolValue = s.symbolValue) := by
  have hlow := Drafted.lowest_enlist hs hd hpos hw hk hsame
  refine ensures_reoptimize
    (((hw.layered.enlist c tag).symbolValue_optimize hw.feasible hlow limit).mono ?_)
  rintro p hp
  exact ⟨fun _ => hp.trans hsame, fun _ _ => hp.trans hsame⟩

theorem Drafted.symbolValue_enter (hx : x ∈ r.symbols ∨ x ∈ tag.symbols)
    (hvalue : u.value = s.value) (hmet : c.expression.eval s.value = 0) :
    (u.enter x (r.solveFor x)).symbolValue = s.symbolValue := by
  have hpar : u.tableau.Parametric x := hx.elim (hd.admits.parametric x) (hd.parametric x)
  have hzero : (r.solveFor x).constant = 0 := by
    show r.constant * _ = 0
    rw [Drafted.constant_eq_zero hs hd hvalue hmet, zero_mul]
  exact (hd.layered.proper.symbolValue_enter hpar hzero).trans hd.drafts.symbolValue_eq

/-- Installing a constraint that is met by a probe moves nothing, if it succeeds. -/
theorem Drafted.symbolValue_installByProbe (hpos : 0 ≤ c.strength.value)
    (hvalue : u.value = s.value) (hmet : c.expression.eval s.value = 0)
    (hsub : subject? r tag = none) (hdum : r.allDummies = false) (limit : Nat) :
    Ensures (installByProbe limit u s.unknowns.size c r tag)
      (fun p => p.2 = .ok () → p.1.symbolValue = s.symbolValue) := by
  have hjournal : Layered { u with tableau := u.tableau.openJournal } :=
    hd.layered.withJournal _
  have hfeasible : u.Feasible := hs.optimal.feasible.of_drafts hd.drafts
  have hprobe := hjournal.symbolValue_probe hfeasible
    (hd.admits.of_parametric (fun _ _ hy => hy)) (Drafted.within_one hd hsub)
    (Drafted.constant_eq_zero hs hd hvalue hmet) limit
  have hknows : ∀ y, u.tableau.Knows y → Ensures
      (probe limit { u with tableau := u.tableau.openJournal } r)
        (fun p => p.1.tableau.Knows y) := fun y hy =>
    ensures_probe (rowStable_knows y) (fun _ _ h => h) limit
      (Tableau.knows_insert.mpr (hy.newSymbol .slack))
  refine ensures_installByProbe ?_
  intro p hp
  refine ⟨fun hok => ?_, fun _ he => (by cases he), fun _ _ he => (by cases he)⟩
  rcases Drafted.decides_probe hd hsub hs hdum limit p hp with ⟨-, hkeep⟩ | ⟨hno, -⟩
  · exact (Drafted.symbolValue_install hs hd hpos hkeep (fun y hy => hknows y hy p hp)
      ((hprobe p hp).trans hd.drafts.symbolValue_eq) limit).mono (fun _ h _ => h)
  · rw [hok] at hno
    cases hno

end Met

section Stays

/-- Every variable that was known keeps its value, and every other one is zero. -/
structure Stays (s u : Solver Rat) : Prop where
  known : ∀ v, s.hasVariable v = true → u.value? v = s.value? v
  new : ∀ v, s.hasVariable v = false → u.hasVariable v = true → u.value? v = some 0

theorem value_of_not_hasVariable (h : s.hasVariable v = false) : s.value v = 0 := by
  rw [value, value?_of_not_hasVariable h]
  rfl

theorem isSome_value? (s : Solver Rat) (v : Variable) : (s.value? v).isSome = s.hasVariable v := by
  rw [value?, Option.isSome_map, OrderedMap.isSome_get?]
  rfl

theorem Stays.of_value (hvalue : u.value = s.value)
    (hknown : ∀ v, s.hasVariable v = true → u.hasVariable v = true) : Stays s u where
  known := fun v hv => by
    rw [value?_of_hasVariable hv, value?_of_hasVariable (hknown v hv), hvalue]
  new := fun v hv hu => by
    rw [value?_of_hasVariable hu, hvalue, value_of_not_hasVariable hv]

theorem Stays.refl (s : Solver Rat) : Stays s s :=
  .of_value rfl (fun _ hv => hv)

theorem Stays.withEdits (h : Stays s u) (edits : OrderedMap Variable (Edit Rat)) :
    Stays s { u with edits := edits } :=
  ⟨h.known, h.new⟩

theorem Stays.hasVariable (h : Stays s u) (hv : s.hasVariable v = true) :
    u.hasVariable v = true := by
  rw [← isSome_value?, h.known v hv, isSome_value?, hv]

theorem Stays.value_eq (h : Stays s u) : u.value = s.value := by
  funext v
  cases hv : s.hasVariable v with
  | true => rw [value, value, h.known v hv]
  | false =>
      rw [value_of_not_hasVariable hv]
      cases hu : u.hasVariable v with
      | true =>
          rw [value, h.new v hv hu]
          rfl
      | false => exact value_of_not_hasVariable hu

theorem Stays.trans (h : Stays s u) (h' : Stays u w) : Stays s w :=
  .of_value (h'.value_eq.trans h.value_eq) (fun _ hv => h'.hasVariable (h.hasVariable hv))

end Stays

section Adding

/-- Counting the references of a new constraint moves nothing. -/
theorem stays_of_retained
    (hunknowns : u.unknowns = ((s.createRow c).2.2.retainVariables c).unknowns)
    (hsymbols : u.symbolValue = s.symbolValue) : Stays s u := by
  have hd := s.drafts_createRow c
  have hread : u.read = (s.createRow c).2.2.read :=
    (read_congr (s := (s.createRow c).2.2.enlist c (s.createRow c).2.1) hunknowns).trans
      (read_enlist _ _ _)
  refine .of_value ?_ (fun v hv => ?_)
  · calc u.value
        = (s.createRow c).2.2.read u.symbolValue := by rw [← read_basic, fill_zero, hread]
      _ = (s.createRow c).2.2.value := by
          rw [hsymbols, ← hd.symbolValue_eq, ← fill_zero, read_basic]
      _ = s.value := value_createRow s c
  · have hcreated := hd.contains hv
    rw [OrderedMap.contains_eq_any_keys] at hcreated
    rwa [hasVariable, hunknowns, OrderedMap.contains_eq_any_keys, keys_retainVariables]

variable (hs : s.Sound) (hpos : 0 ≤ c.strength.value) (hmet : c.expression.eval s.value = 0)
include hs hmet

/-- A constraint that is met contradicts nothing. -/
theorem Sound.not_contradicts : ¬ Contradicts c s := by
  intro hc
  refine hc s.value (fun _ => ?_) (fun _ hd hr => hs.holds hd hr)
  unfold Constraint.Holds
  dsimp only
  rw [hmet]
  cases c.relation <;> rfl

include hpos

/-- Adding a constraint that is met leaves every symbol at its value. -/
theorem Sound.symbolValue_add (limit : Nat) :
    Ensures (s.add limit c) (fun p => p.2 = .ok () → p.1.symbolValue = s.symbolValue) := by
  have hd := drafted_createRow hs.ledger hs.optimal.layered c
  have hvalue := value_createRow s c
  have henter : ∀ x, x ∈ (s.createRow c).1.symbols ∨ x ∈ (s.createRow c).2.1.symbols →
      Hosts (s.createRow c).2.2 (s.createRow c).1
        ((s.createRow c).2.2.enter x ((s.createRow c).1.solveFor x)) →
      Ensures (install limit ((s.createRow c).2.2.enter x ((s.createRow c).1.solveFor x)) c
        (s.createRow c).2.1) (fun p => p.2 = .ok () → p.1.symbolValue = s.symbolValue) :=
    fun x hx hw => (Drafted.symbolValue_install hs hd hpos hw (fun _ hy => knows_enter.mpr hy)
      (Drafted.symbolValue_enter hs hd hx hvalue hmet) limit).mono (fun _ h _ => h)
  refine ensures_add (fun _ he => by cases he) (fun _ x hx => ?_) (fun _ hsub hdum => ?_)
    (fun _ hdum hz => ?_) (fun _ _ _ _ he => by cases he)
  · exact henter x (subject?_mem hx) (Drafted.hosts_subject hd hs hx)
  · exact Drafted.symbolValue_installByProbe hs hd hpos hvalue hmet hsub hdum limit
  · exact henter _ (Or.inr (by simp [Tag.symbols])) (Drafted.hosts_dummy hd hs hdum hz)

/-- Adding a constraint that is met moves nothing. -/
theorem Sound.stays_add (hnew : s.hasConstraint c = false) (limit : Nat) :
    Ensures (s.add limit c) (fun p => p.2 = .ok () ∧ p.1.Sound ∧ Stays s p.1) := by
  refine (((hs.decides_add hnew hpos limit).and (hs.symbolValue_add hpos hmet limit)).and
    (ensures_accession s limit c)).mono ?_
  rintro ⟨u, answer⟩ ⟨⟨hdecides, hsymbols⟩, haccession, -⟩
  obtain ⟨hok, hsound, -⟩ := hdecides.resolve_right (fun h => hs.not_contradicts hmet h.2)
  obtain rfl : answer = .ok () := hok
  refine ⟨rfl, hsound, ?_⟩
  cases haccession with
  | installed _ _ hunknowns _ => exact stays_of_retained hunknowns (hsymbols rfl)

/-- Adding a constraint that is met moves nothing, whether or not it is installed
already. -/
theorem Sound.stays_add_again (limit : Nat) :
    Ensures (s.add limit c) (fun p => p.1.Sound ∧ Stays s p.1 ∧
      (p.2 = .ok () ∨ s.hasConstraint c = true ∧ p.2 = .error .duplicateConstraint)) := by
  cases hc : s.hasConstraint c with
  | false =>
      refine (hs.stays_add hpos hmet hc limit).mono ?_
      exact fun _ ⟨hok, hsound, hstays⟩ => ⟨hsound, hstays, Or.inl hok⟩
  | true =>
      refine ensures_add (fun _ => ⟨hs, .refl s, Or.inr ⟨rfl, rfl⟩⟩) ?_ ?_ ?_ ?_
      all_goals
        intro hno
        simp [hc] at hno

end Adding

section Editing

/-- Beginning an edit moves nothing. -/
theorem Sound.stays_addEdit (hs : s.Sound) (limit : Nat) (v : Variable)
    (strength : Strength Rat) :
    Ensures (s.addEdit limit v strength) (fun p => Stays s p.1) := by
  refine ensures_addEdit (fun _ => .refl s) (fun _ => .refl s) (fun _ _ => ?_)
  have hpos : 0 ≤ (holding v (s.value v) (.clip strength.value)).strength.value :=
    clip_nonneg strength.value
  have hmet : (holding v (s.value v) (.clip strength.value)).expression.eval s.value = 0 := by
    rw [eval_holding, sub_self]
  refine (hs.stays_add_again hpos hmet limit).mono ?_
  rintro p ⟨-, hstays, -⟩
  exact ⟨fun _ _ _ => hstays.withEdits _, fun _ _ _ => hstays, fun _ _ => hstays⟩

end Editing

end Solver
end Tether
