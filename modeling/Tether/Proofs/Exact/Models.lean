import Tether.Proofs.Exact.Systems
import Tether.Proofs.Solver.LedgerRemoval
import Tether.Proofs.Solver.Runs

/-!
# What a solver stands for

A solver models a list of tagged constraints if its solutions are the symbols
that balance them and its objective is, up to a constant, what they miss.

A solver is sound if its books are in order, no call is under way, its basic
solution is lawful and lowest, and it models the installed constraints, with
every edit constraint taken at the value that was last suggested.  In a sound
solver the required constraints hold at the values of the variables, and no
other values that satisfy them violate the preferences less.
-/

namespace Tether

open Simplex

section Current

variable {c : Constraint Rat} {edits : OrderedMap Variable (Edit Rat)}
  {l : List (Constraint Rat × Tag)}

/-- What a constraint asks for while edits last: the constraint behind an edit
variable asks for the value that was last suggested. -/
def Constraint.current (c : Constraint Rat) (edits : OrderedMap Variable (Edit Rat)) :
    Constraint Rat :=
  match edits.entries.find? (fun e => e.2.constraint == c) with
  | some e => { c with expression := (Solver.holding e.1 e.2.constant c.strength).expression }
  | none => c

/-- Tagged constraints, each as it is now. -/
def demands (edits : OrderedMap Variable (Edit Rat)) (l : List (Constraint Rat × Tag)) :
    List (Constraint Rat × Tag) :=
  l.map (fun e => (e.1.current edits, e.2))

@[simp] theorem Constraint.strength_current (c : Constraint Rat)
    (edits : OrderedMap Variable (Edit Rat)) : (c.current edits).strength = c.strength := by
  unfold current
  split <;> rfl

@[simp] theorem Constraint.relation_current (c : Constraint Rat)
    (edits : OrderedMap Variable (Edit Rat)) : (c.current edits).relation = c.relation := by
  unfold current
  split <;> rfl

theorem Constraint.current_of_find? {e : Variable × Edit Rat}
    (h : edits.entries.find? (fun e => e.2.constraint == c) = some e) :
    c.current edits =
      { c with expression := (Solver.holding e.1 e.2.constant c.strength).expression } := by
  simp only [current, h]

theorem Constraint.current_of_none
    (h : ∀ e ∈ edits.entries, (e.2.constraint == c) = false) : c.current edits = c := by
  have hnone : edits.entries.find? (fun e => e.2.constraint == c) = none :=
    List.find?_eq_none.mpr (fun e he => by simp [h e he])
  simp only [current, hnone]

/-- No edit moves a required constraint. -/
theorem Held.current_of_required (h : Held edits l) (hr : c.strength.isRequired = true) :
    c.current edits = c := by
  refine Constraint.current_of_none (fun e he => ?_)
  obtain ⟨x, strength, hc, hs⟩ := h.form e he
  by_contra hne
  have hcontent := Constraint.beq_iff.mp (by simpa using hne)
  have hstrength : e.2.constraint.strength = c.strength := congrArg (fun p => p.2.2) hcontent
  rw [← hstrength, hc] at hr
  exact absurd hr (by simp [Solver.holding, Constraint.relate, hs])

/-- A constraint refers to the variables that it refers to now. -/
theorem Held.terms_current (h : Held edits l) (c : Constraint Rat) :
    (c.current edits).expression.terms = c.expression.terms := by
  cases hf : edits.entries.find? (fun e => e.2.constraint == c) with
  | none => simp only [Constraint.current, hf]
  | some e =>
      obtain ⟨x, strength, hc, -⟩ := h.form e (List.mem_of_find?_eq_some hf)
      have hcontent := Constraint.beq_iff.mp
        (List.find?_some (p := fun e : Variable × Edit Rat => e.2.constraint == c) hf)
      have hexpr : e.2.constraint.expression = c.expression := congrArg (fun p => p.1) hcontent
      rw [Constraint.current_of_find? hf, ← hexpr, hc]
      rfl

theorem map_fst_demands (edits : OrderedMap Variable (Edit Rat))
    (l : List (Constraint Rat × Tag)) :
    (demands edits l).map (·.1) = (l.map (·.1)).map (·.current edits) := by
  simp [demands, Function.comp_def]

theorem Tagged.wired {t : Tableau Rat} (h : Tagged t l)
    (edits : OrderedMap Variable (Edit Rat)) : Wired t (demands edits l) where
  fits := by
    intro e he
    obtain ⟨d, hd, rfl⟩ := List.mem_map.mp he
    have hf := h.fits d hd
    unfold Tag.Fits Constraint.markerKind at hf ⊢
    rwa [Constraint.relation_current, Constraint.strength_current]
  knows := by
    intro e he
    obtain ⟨d, hd, rfl⟩ := List.mem_map.mp he
    exact h.knows d hd
  disjoint := by
    rw [demands, List.flatMap_map]
    exact h.disjoint

end Current

section Expressions

theorem Expression.sumTerms_congr {terms : List (Term Rat)} {f g : Variable → Rat}
    (h : ∀ t ∈ terms, t.coefficient ≠ 0 → f t.unknown = g t.unknown) :
    sumTerms f terms = sumTerms g terms := by
  induction terms with
  | nil => rfl
  | cons t rest ih =>
      have hcons : ∀ ν : Variable → Rat, sumTerms ν (t :: rest) =
          t.coefficient * ν t.unknown + sumTerms ν rest := fun _ => rfl
      rw [hcons, hcons, ih (fun x hx => h x (List.mem_cons_of_mem t hx))]
      by_cases hz : t.coefficient = 0
      · rw [hz, zero_mul, zero_mul]
      · rw [h t List.mem_cons_self hz]

theorem Expression.eval_congr {e : Expression Rat} {f g : Variable → Rat}
    (h : ∀ t ∈ e.terms, t.coefficient ≠ 0 → f t.unknown = g t.unknown) : e.eval f = e.eval g :=
  congrArg (· + e.constant) (sumTerms_congr h)

theorem Tag.balances_congr {tag : Tag} {c : Constraint Rat} {f g : Variable → Rat}
    {σ : Symbol → Rat}
    (h : ∀ t ∈ c.expression.terms, t.coefficient ≠ 0 → f t.unknown = g t.unknown) :
    tag.Balances c f σ ↔ tag.Balances c g σ := by
  unfold Tag.Balances
  rw [Expression.eval_congr h]

end Expressions

namespace Solver

variable {s u : Solver Rat} {l : List (Constraint Rat × Tag)} {ν : Variable → Rat}
  {σ : Symbol → Rat}

section Models

/-- The value that symbols give to a variable, zero if it is not known. -/
def read (s : Solver Rat) (σ : Symbol → Rat) (v : Variable) : Rat :=
  ((s.unknowns.get? v).map (fun entry => σ entry.symbol)).getD 0

/-- The basic solution gives the symbols their values. -/
theorem fill_zero (s : Solver Rat) : s.tableau.fill 0 = s.symbolValue := by
  funext x
  unfold Tableau.fill symbolValue
  cases s.tableau.row? x with
  | none => rfl
  | some r => exact Row.eval_zero r

/-- The basic solution gives the variables their values. -/
theorem read_basic (s : Solver Rat) : s.read (s.tableau.fill 0) = s.value := by
  rw [fill_zero]
  rfl

theorem read_congr (h : u.unknowns = s.unknowns) : u.read = s.read := by
  funext σ v
  rw [read, read, h]

/-- The solutions are the symbols that balance the constraints, and the
objective is what these miss, up to a constant. -/
structure Models (s : Solver Rat) (l : List (Constraint Rat × Tag)) : Prop where
  solves : ∀ σ, s.tableau.Solves σ ↔ ∀ e ∈ l, e.2.Balances e.1 (s.read σ) σ
  objective : ∃ k, ∀ σ, s.tableau.Solves σ → s.objective.eval σ = k + penalty σ l

theorem Models.of_equivalent (h : s.Models l) (he : s.Equivalent u)
    (hu : u.unknowns = s.unknowns) : u.Models l := by
  obtain ⟨k, hk⟩ := h.objective
  refine ⟨fun σ => ?_, k, fun σ hσ => ?_⟩
  · rw [he.solves, h.solves, read_congr hu]
  · have hσ := (he.solves σ).mp hσ
    rw [he.objective σ hσ, hk σ hσ]

/-- The variables of the constraints are known. -/
def Speaks (s : Solver Rat) (l : List (Constraint Rat × Tag)) : Prop :=
  ∀ e ∈ l, ∀ t ∈ e.1.expression.terms, t.coefficient ≠ 0 → s.hasVariable t.unknown = true

/-- What constraints say of given values, they say of the symbols that have these values. -/
theorem Speaks.balances_iff (hs : s.Speaks l) {t : Tableau Rat} {demand : Variable → Nat}
    (hc : Counted t s.unknowns demand)
    (hσ : ∀ e ∈ s.unknowns.entries, σ e.2.symbol = ν e.1) {e : Constraint Rat × Tag}
    (he : e ∈ l) : e.2.Balances e.1 (s.read σ) σ ↔ e.2.Balances e.1 ν σ := by
  refine Tag.balances_congr (fun t ht hz => ?_)
  obtain ⟨entry, hentry⟩ : ∃ entry, s.unknowns.get? t.unknown = some entry := by
    refine Option.isSome_iff_exists.mp ?_
    rw [OrderedMap.isSome_get?]
    exact hs e he t ht hz
  have hm := (OrderedMap.get?_eq_some_iff hc.keys).mp hentry
  rw [read, hentry, Option.map_some, Option.getD_some]
  exact hσ _ hm

/-- Values of the variables that satisfy the required constraints extend to
lawful symbols that balance every constraint and miss the preferences by no more
than necessary. -/
theorem Speaks.exists_balanced (hs : s.Speaks l) (hw : Wired s.tableau l)
    {demand : Variable → Nat} (hc : Counted s.tableau s.unknowns demand)
    (hv : ∀ e ∈ l, e.1.strength.isRequired = true → e.1.Holds ν) :
    ∃ σ, s.tableau.Lawful σ ∧ (∀ e ∈ l, e.2.Balances e.1 (s.read σ) σ) ∧
      penalty σ l = regret ν (l.map (·.1)) := by
  obtain ⟨σ, hlaw, hsym, hb, hp⟩ := hw.exists_settled hc hv
  exact ⟨σ, hlaw, fun e he => (hs.balances_iff hc hsym he).mpr (hb e he), hp⟩

/-- What the preferences miss is never negative, so the objective is bounded. -/
theorem Models.boundedBelow (h : s.Models l) (hw : Wired s.tableau l)
    (hpos : ∀ e ∈ l, 0 ≤ e.1.strength.value) : s.BoundedBelow .primary := by
  obtain ⟨k, hk⟩ := h.objective
  refine ⟨k, fun σ hσ hlaw r hr => ?_⟩
  obtain rfl : s.objective = r := Option.some.inj hr
  rw [hk σ hσ]
  linarith [penalty_nonneg hpos hw.knows hlaw]

/-- A layered and feasible solver that models the given constraints. -/
structure Standing (s : Solver Rat) (l : List (Constraint Rat × Tag)) : Prop where
  layered : s.Layered
  feasible : s.Feasible
  models : s.Models l

/-- A standing solver whose objective is settled. -/
structure Optimal (s : Solver Rat) (l : List (Constraint Rat × Tag)) : Prop
    extends Standing s l where
  settled : s.objective.Settled

/-- Lowering the objective of a standing solver succeeds. -/
theorem Standing.reoptimize (h : s.Standing l) (hw : Wired s.tableau l)
    (hpos : ∀ e ∈ l, 0 ≤ e.1.strength.value) {ε : Type} (limit : Nat)
    (internal : String → ε) :
    Ensures (reoptimize limit internal s) (fun p => p.2 = .ok () ∧ p.1.Optimal l) := by
  unfold Solver.reoptimize
  refine Ensures.map ?_
  rintro ⟨s', answer⟩ hp
  obtain ⟨ha, hlow, hset⟩ := h.layered.optimize h.feasible .primary
    (by simp [goalRow?]) (h.models.boundedBelow hw hpos) limit _ hp
  have hbooks := (rowStable_books s).optimize rfl .primary limit _ hp
  obtain rfl : answer = .ok () := ha
  have hmodels := h.models.of_equivalent hlow.equivalent (congrArg (fun b => b.2.2.1) hbooks)
  exact ⟨rfl, ⟨hlow.layered.withInfeasible (by simp), hlow.feasible,
    hmodels.solves, hmodels.objective⟩, hset _ rfl⟩

end Models

section Sound

/-- A solver that stands for its installed constraints, with every edit
constraint at the value that was last suggested. -/
structure Sound (s : Solver Rat) : Prop where
  ledger : s.Ledger
  idle : s.Idle
  optimal : s.Optimal (demands s.edits s.constraints.entries)
  weights : ∀ e ∈ s.constraints.entries, 0 ≤ e.1.strength.value

/-- The variables of the constraints are in use. -/
def Employs (s : Solver Rat) (l : List (Constraint Rat × Tag)) : Prop :=
  ∀ e ∈ l, ∀ t ∈ e.1.expression.terms, t.coefficient ≠ 0 → 0 < s.uses t.unknown

theorem employs_demands {edits : OrderedMap Variable (Edit Rat)}
    (h : Held edits s.constraints.entries) : s.Employs (demands edits s.constraints.entries) := by
  intro e he t ht hz
  obtain ⟨d, hd, rfl⟩ := List.mem_map.mp he
  dsimp only at ht
  rw [h.terms_current] at ht
  rw [uses, List.countP_pos_iff]
  refine ⟨t, List.mem_flatMap.mpr ⟨d.1, OrderedMap.mem_keys_of_mem hd, ht⟩, ?_⟩
  refine Term.refersTo_unknown ?_
  rw [← Bool.not_eq_true, Scalar.nearZero_iff]
  exact hz

theorem Ledger.speaks (h : s.Ledger) : s.Speaks (demands s.edits s.constraints.entries) :=
  fun e he t ht hz => h.counted.demanded _ (employs_demands h.held e he t ht hz)

theorem nonneg_demands {edits : OrderedMap Variable (Edit Rat)}
    (h : ∀ e ∈ l, 0 ≤ e.1.strength.value) : ∀ e ∈ demands edits l, 0 ≤ e.1.strength.value := by
  intro e he
  obtain ⟨d, hd, rfl⟩ := List.mem_map.mp he
  rw [Constraint.strength_current]
  exact h d hd

/-- Values that satisfy the required constraints satisfy what they ask for
now. -/
theorem Ledger.holds_demands (h : s.Ledger)
    (hv : ∀ c ∈ s.constraints.keys, c.strength.isRequired = true → c.Holds ν) :
    ∀ e ∈ demands s.edits s.constraints.entries, e.1.strength.isRequired = true →
      e.1.Holds ν := by
  intro e he hr
  obtain ⟨d, hd, rfl⟩ := List.mem_map.mp he
  dsimp only at hr ⊢
  rw [Constraint.strength_current] at hr
  rw [h.held.current_of_required hr]
  exact hv d.1 (OrderedMap.mem_keys_of_mem hd) hr

/-- In a sound solver every required constraint holds. -/
theorem Sound.holds (h : s.Sound) {c : Constraint Rat} (hc : c ∈ s.constraints.keys)
    (hr : c.strength.isRequired = true) : c.Holds s.value := by
  obtain ⟨e, he, rfl⟩ := List.mem_map.mp hc
  have hσ := h.optimal.layered.proper.rows.solves_fill 0
  have hd : (e.1.current s.edits, e.2) ∈ demands s.edits s.constraints.entries :=
    List.mem_map.mpr ⟨e, he, rfl⟩
  have hb := (h.optimal.models.solves _).mp hσ _ hd
  rw [read_basic, h.ledger.held.current_of_required hr] at hb
  exact hb.holds (h.ledger.tagged.fits e he) hr
    (h.ledger.tagged.knows e he _ (by simp [Tag.symbols]))
    (h.optimal.layered.lawful_basic h.optimal.feasible)

/-- In a sound solver no values that satisfy the required constraints violate
the preferences less. -/
theorem Sound.regret_le (h : s.Sound)
    (hv : ∀ c ∈ s.constraints.keys, c.strength.isRequired = true → c.Holds ν) :
    regret s.value (s.constraints.keys.map (·.current s.edits)) ≤
      regret ν (s.constraints.keys.map (·.current s.edits)) := by
  have hw := h.ledger.tagged.wired s.edits
  have hpos : ∀ e ∈ demands s.edits s.constraints.entries, 0 ≤ e.1.strength.value :=
    nonneg_demands h.weights
  have hfst := map_fst_demands s.edits s.constraints.entries
  obtain ⟨k, hk⟩ := h.optimal.models.objective
  obtain ⟨σ, hlaw, hb, hp⟩ := h.ledger.speaks.exists_balanced hw h.ledger.counted
    (h.ledger.holds_demands hv)
  have hσ := (h.optimal.models.solves σ).mpr hb
  have hbasic := h.optimal.layered.proper.rows.solves_fill 0
  have hadmits := h.optimal.layered.proper.objective
  have hlowest := h.optimal.settled.constant_le hadmits h.optimal.layered.objective hlaw
  have hle := hw.regret_le_penalty hpos ((h.optimal.models.solves _).mp hbasic)
    (h.optimal.layered.lawful_basic h.optimal.feasible)
  have hobj := hk _ hbasic
  rw [hadmits.eval_fill, Row.eval_zero] at hobj
  rw [read_basic, hfst] at hle
  rw [hfst] at hp
  have hat := hk σ hσ
  show regret s.value ((s.constraints.entries.map (·.1)).map (·.current s.edits)) ≤
    regret ν ((s.constraints.entries.map (·.1)).map (·.current s.edits))
  linarith

end Sound

end Solver
end Tether
