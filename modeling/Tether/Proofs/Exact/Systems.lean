import Mathlib.Algebra.Order.BigOperators.Group.List
import Mathlib.Tactic.LinearCombination
import Tether.Proofs.Exact.Primal

/-!
# Constraints as equations

What the symbols of a constraint have to do with what the constraint says.

* The symbols balance a constraint if they make up for what its expression
  lacks of zero.
* Lawful symbols that balance a required constraint show that it holds, and
  those that balance a preference bound its violation by the errors.
* Conversely, values of the variables that satisfy the required constraints
  extend to lawful symbols that balance every constraint, with errors that are
  exactly the violations.
-/

namespace Tether

open Simplex

section Balance

/-- The sign with which the marker of a constraint stands beside its
expression. -/
def Constraint.sense (c : Constraint Rat) : Rat :=
  match c.relation with
  | .lessOrEqual => 1
  | .greaterOrEqual => -1
  | .equalTo => if c.strength.isRequired then 1 else -1

/-- The symbols make up for what the expression lacks of zero. -/
def Tag.Balances (tag : Tag) (c : Constraint Rat) (ν : Variable → Rat) (σ : Symbol → Rat) :
    Prop :=
  c.expression.eval ν + c.sense * (σ tag.marker - tag.other.elim 0 σ) = 0

/-- The value of a symbol that is an error. -/
def Simplex.Symbol.missed (σ : Symbol → Rat) (x : Symbol) : Rat :=
  if x.isError then σ x else 0

/-- The sum of the errors of a constraint. -/
def Tag.missed (tag : Tag) (σ : Symbol → Rat) : Rat :=
  tag.marker.missed σ + tag.other.elim 0 (Symbol.missed σ)

variable {c : Constraint Rat} {tag : Tag} {ν : Variable → Rat} {σ : Symbol → Rat} {o : Symbol}

theorem Constraint.sense_mul_self (c : Constraint Rat) : c.sense * c.sense = 1 := by
  unfold sense
  split
  · norm_num
  · norm_num
  · split <;> norm_num

theorem Constraint.sense_of_lessOrEqual (h : c.relation = .lessOrEqual) : c.sense = 1 := by
  simp [sense, h]

theorem Constraint.sense_of_greaterOrEqual (h : c.relation = .greaterOrEqual) :
    c.sense = -1 := by
  simp [sense, h]

theorem Constraint.sense_of_equalTo (h : c.relation = .equalTo) :
    c.sense = if c.strength.isRequired then 1 else -1 := by
  simp [sense, h]

section Fitting

theorem Tag.Fits.other_eq_none (h : tag.Fits c) (hr : c.strength.isRequired = true) :
    tag.other = none := by
  have := h.2
  rw [if_pos hr] at this
  exact Option.map_eq_none_iff.mp this

theorem Tag.Fits.exists_other (h : tag.Fits c) (hr : c.strength.isRequired = false) :
    ∃ o, tag.other = some o ∧ o.kind = .error := by
  have := h.2
  rw [if_neg (by simp [hr])] at this
  exact Option.map_eq_some_iff.mp this

/-- No symbol of a constraint stands for a variable. -/
theorem Tag.Fits.tier_le (h : tag.Fits c) {x : Symbol} (hx : x ∈ tag.symbols) : x.tier ≤ 1 := by
  rcases List.mem_cons.mp hx with rfl | hx
  · unfold Symbol.tier
    rw [h.1, Constraint.markerKind]
    split
    · split <;> simp [SymbolKind.tier]
    · simp [SymbolKind.tier]
  · have hother := h.2
    rw [Option.mem_toList.mp hx, Option.map_some] at hother
    split at hother
    · cases hother
    · simp [Symbol.tier, SymbolKind.tier, Option.some.inj hother]

theorem Tag.Fits.tier_marker_of_ne (h : tag.Fits c) (hr : c.relation ≠ .equalTo) :
    tag.marker.kind = .slack ∧ tag.marker.tier = 1 := by
  have hk : tag.marker.kind = .slack := by
    rw [h.1, Constraint.markerKind]
    split
    · contradiction
    · rfl
  exact ⟨hk, by simp [Symbol.tier, hk, SymbolKind.tier]⟩

theorem Tag.Fits.tier_marker_of_required (h : tag.Fits c) (hr : c.relation = .equalTo)
    (hc : c.strength.isRequired = true) : tag.marker.kind = .dummy ∧ tag.marker.tier = 0 := by
  have hk : tag.marker.kind = .dummy := by simp [h.1, Constraint.markerKind, hr, hc]
  exact ⟨hk, by simp [Symbol.tier, hk, SymbolKind.tier]⟩

theorem Tag.Fits.tier_marker_of_preference (h : tag.Fits c) (hr : c.relation = .equalTo)
    (hc : c.strength.isRequired = false) : tag.marker.kind = .error ∧ tag.marker.tier = 1 := by
  have hk : tag.marker.kind = .error := by simp [h.1, Constraint.markerKind, hr, hc]
  exact ⟨hk, by simp [Symbol.tier, hk, SymbolKind.tier]⟩

theorem Simplex.Symbol.tier_of_error (h : o.kind = .error) : o.tier = 1 := by
  simp [tier, h, SymbolKind.tier]

theorem Simplex.Symbol.missed_of_error (h : o.kind = .error) : o.missed σ = σ o := by
  simp [missed, isError, h]

theorem Simplex.Symbol.missed_of_ne (h : o.kind ≠ .error) : o.missed σ = 0 := by
  simp [missed, isError, h]

theorem Tag.Fits.missed_of_required (h : tag.Fits c) (hr : c.strength.isRequired = true) :
    tag.missed σ = 0 := by
  have hk : tag.marker.kind ≠ .error := by
    rw [h.1, Constraint.markerKind]
    split
    · rw [if_pos hr]
      simp
    · simp
  rw [Tag.missed, h.other_eq_none hr, Symbol.missed_of_ne hk]
  exact Rat.add_zero 0

theorem Tag.Fits.missed_of_ne (h : tag.Fits c) (hr : c.relation ≠ .equalTo)
    (ho : tag.other = some o) (hk : o.kind = .error) : tag.missed σ = σ o := by
  have hm : tag.marker.kind ≠ .error := by simp [(h.tier_marker_of_ne hr).1]
  rw [Tag.missed, ho, Symbol.missed_of_ne hm, Option.elim_some, Symbol.missed_of_error hk,
    zero_add]

theorem Tag.Fits.missed_of_equalTo (h : tag.Fits c) (hr : c.relation = .equalTo)
    (hc : c.strength.isRequired = false) (ho : tag.other = some o) (hk : o.kind = .error) :
    tag.missed σ = σ tag.marker + σ o := by
  rw [Tag.missed, ho, Symbol.missed_of_error (h.tier_marker_of_preference hr hc).1,
    Option.elim_some, Symbol.missed_of_error hk]

end Fitting

section Violation

theorem Constraint.violation_of_lessOrEqual (h : c.relation = .lessOrEqual) :
    c.violation ν = max (c.expression.eval ν) 0 := by
  simp only [violation, h]
  rcases le_or_gt (c.expression.eval ν) 0 with hle | hgt
  · rw [max_eq_right hle, if_neg (by rw [Scalar.positive_iff]; exact not_lt.mpr hle)]
    rfl
  · rw [max_eq_left (le_of_lt hgt), if_pos (Scalar.positive_iff.mpr hgt)]

theorem Constraint.violation_of_greaterOrEqual (h : c.relation = .greaterOrEqual) :
    c.violation ν = max (-c.expression.eval ν) 0 := by
  simp only [violation, h]
  rcases le_or_gt 0 (c.expression.eval ν) with hle | hgt
  · rw [max_eq_right (by linarith), if_neg (by rw [Scalar.negative_iff]; exact not_lt.mpr hle)]
    rfl
  · rw [max_eq_left (by linarith), if_pos (Scalar.negative_iff.mpr hgt)]

/-- The violation of an equality is what lies above zero and what lies below. -/
theorem Constraint.violation_of_equalTo (h : c.relation = .equalTo) :
    c.violation ν = max (c.expression.eval ν) 0 + max (-c.expression.eval ν) 0 := by
  have habove := violation_of_lessOrEqual (ν := ν) (c := { c with relation := .lessOrEqual }) rfl
  have hbelow :=
    violation_of_greaterOrEqual (ν := ν) (c := { c with relation := .greaterOrEqual }) rfl
  simp only [violation, h] at habove hbelow ⊢
  rw [← habove, ← hbelow]

/-- A required constraint that is balanced by lawful symbols holds. -/
theorem Tag.Balances.holds {t : Tableau Rat} (hb : tag.Balances c ν σ) (hf : tag.Fits c)
    (hr : c.strength.isRequired = true) (hk : t.Knows tag.marker) (hσ : t.Lawful σ) :
    c.Holds ν := by
  unfold Tag.Balances at hb
  rw [hf.other_eq_none hr, Option.elim_none] at hb
  unfold Constraint.Holds
  split
  · rename_i heq
    rw [Constraint.sense_of_equalTo heq, if_pos hr,
      hσ.zero _ hk (hf.tier_marker_of_required heq hr).2] at hb
    exact Scalar.isZero_iff.mpr (by linarith)
  · rename_i hle
    have hpos := hσ.nonneg _ hk (hf.tier_marker_of_ne (by simp [hle])).2
    rw [Constraint.sense_of_lessOrEqual hle] at hb
    exact Scalar.positive_eq_false_iff.mpr (by linarith)
  · rename_i hge
    have hpos := hσ.nonneg _ hk (hf.tier_marker_of_ne (by simp [hge])).2
    rw [Constraint.sense_of_greaterOrEqual hge] at hb
    exact Scalar.negative_eq_false_iff.mpr (by linarith)

/-- Lawful symbols that balance a preference miss it by its violation at least. -/
theorem Tag.Balances.violation_le {t : Tableau Rat} (hb : tag.Balances c ν σ) (hf : tag.Fits c)
    (hr : c.strength.isRequired = false) (hk : ∀ x ∈ tag.symbols, t.Knows x)
    (hσ : t.Lawful σ) : c.violation ν ≤ tag.missed σ := by
  obtain ⟨o, ho, hok⟩ := hf.exists_other hr
  have hm : t.Knows tag.marker := hk _ (by simp [Tag.symbols])
  have hopos : 0 ≤ σ o :=
    hσ.nonneg o (hk o (by simp [Tag.symbols, ho])) (Symbol.tier_of_error hok)
  unfold Tag.Balances at hb
  rw [ho, Option.elim_some] at hb
  cases hrel : c.relation with
  | equalTo =>
      have hpos := hσ.nonneg _ hm (hf.tier_marker_of_preference hrel hr).2
      rw [Constraint.sense_of_equalTo hrel, if_neg (by simp [hr])] at hb
      rw [Constraint.violation_of_equalTo hrel, hf.missed_of_equalTo hrel hr ho hok]
      exact add_le_add (max_le (by linarith) hpos) (max_le (by linarith) hopos)
  | lessOrEqual =>
      have hpos := hσ.nonneg _ hm (hf.tier_marker_of_ne (by simp [hrel])).2
      rw [Constraint.sense_of_lessOrEqual hrel] at hb
      rw [Constraint.violation_of_lessOrEqual hrel, hf.missed_of_ne (by simp [hrel]) ho hok]
      exact max_le (by linarith) hopos
  | greaterOrEqual =>
      have hpos := hσ.nonneg _ hm (hf.tier_marker_of_ne (by simp [hrel])).2
      rw [Constraint.sense_of_greaterOrEqual hrel] at hb
      rw [Constraint.violation_of_greaterOrEqual hrel, hf.missed_of_ne (by simp [hrel]) ho hok]
      exact max_le (by linarith) hopos

end Violation

section Settling

/-- The least symbols that balance a constraint. -/
def Tag.settle (tag : Tag) (c : Constraint Rat) (ν : Variable → Rat) : List (Symbol × Rat) :=
  (tag.marker, max (-(c.sense * c.expression.eval ν)) 0) ::
    tag.other.toList.map (fun o => (o, max (c.sense * c.expression.eval ν) 0))

theorem Tag.map_fst_settle (tag : Tag) (c : Constraint Rat) (ν : Variable → Rat) :
    (tag.settle c ν).map (·.1) = tag.symbols := by
  simp [settle, symbols, Function.comp_def]

theorem Tag.nonneg_of_mem_settle {e : Symbol × Rat} (he : e ∈ tag.settle c ν) : 0 ≤ e.2 := by
  rcases List.mem_cons.mp he with rfl | he
  · exact le_max_right _ _
  · obtain ⟨o, -, rfl⟩ := List.mem_map.mp he
    exact le_max_right _ _

/-- The expression of a constraint that holds lies on the right side of zero. -/
theorem Constraint.Holds.sense_mul_eval_le (h : c.Holds ν) :
    c.sense * c.expression.eval ν ≤ 0 := by
  unfold Constraint.Holds at h
  cases hrel : c.relation with
  | equalTo =>
      rw [hrel] at h
      rw [Scalar.isZero_iff.mp h, mul_zero]
  | lessOrEqual =>
      rw [hrel] at h
      rw [Constraint.sense_of_lessOrEqual hrel, one_mul]
      exact Scalar.positive_eq_false_iff.mp h
  | greaterOrEqual =>
      rw [hrel] at h
      rw [Constraint.sense_of_greaterOrEqual hrel]
      linarith [Scalar.negative_eq_false_iff.mp h]

/-- The dummy of a required equality that holds is settled at zero. -/
theorem Tag.zero_of_mem_settle (hf : tag.Fits c)
    (hv : c.strength.isRequired = true → c.Holds ν) {e : Symbol × Rat}
    (he : e ∈ tag.settle c ν) (ht : e.1.tier = 0) : e.2 = 0 := by
  rcases List.mem_cons.mp he with rfl | he
  · cases hrel : c.relation with
    | equalTo =>
        cases hr : c.strength.isRequired with
        | true =>
            have hz := hv hr
            unfold Constraint.Holds at hz
            rw [hrel] at hz
            rw [Scalar.isZero_iff.mp hz, mul_zero, neg_zero, max_self]
        | false =>
            have := (hf.tier_marker_of_preference hrel hr).2
            dsimp only at ht
            omega
    | lessOrEqual =>
        have := (hf.tier_marker_of_ne (by simp [hrel])).2
        dsimp only at ht
        omega
    | greaterOrEqual =>
        have := (hf.tier_marker_of_ne (by simp [hrel])).2
        dsimp only at ht
        omega
  · obtain ⟨o, ho, rfl⟩ := List.mem_map.mp he
    have hother := hf.2
    rw [Option.mem_toList.mp ho, Option.map_some] at hother
    split at hother
    · cases hother
    · have := Symbol.tier_of_error (Option.some.inj hother)
      dsimp only at ht
      omega

/-- The settled values balance the constraint. -/
theorem Tag.balances_of_settle (hf : tag.Fits c)
    (hv : c.strength.isRequired = true → c.Holds ν)
    (hσ : ∀ e ∈ tag.settle c ν, σ e.1 = e.2) : tag.Balances c ν σ := by
  have hm : σ tag.marker = max (-(c.sense * c.expression.eval ν)) 0 :=
    hσ (tag.marker, _) (by simp [settle])
  have hsense := c.sense_mul_self
  unfold Tag.Balances
  cases hr : c.strength.isRequired with
  | true =>
      rw [hf.other_eq_none hr, Option.elim_none, hm,
        max_eq_left (by linarith [(hv hr).sense_mul_eval_le])]
      linear_combination -(c.expression.eval ν) * hsense
  | false =>
      obtain ⟨o, ho, -⟩ := hf.exists_other hr
      have hoσ : σ o = max (c.sense * c.expression.eval ν) 0 :=
        hσ (o, _) (by simp [settle, ho])
      have hdiff : max (-(c.sense * c.expression.eval ν)) 0 -
          max (c.sense * c.expression.eval ν) 0 = -(c.sense * c.expression.eval ν) := by
        rcases le_total (c.sense * c.expression.eval ν) 0 with hle | hge
        · rw [max_eq_left (by linarith), max_eq_right hle, sub_zero]
        · rw [max_eq_right (by linarith), max_eq_left hge, zero_sub]
      rw [ho, Option.elim_some, hm, hoσ, hdiff]
      linear_combination -(c.expression.eval ν) * hsense

/-- The settled values miss a preference by its violation. -/
theorem Tag.missed_of_settle (hf : tag.Fits c) (hr : c.strength.isRequired = false)
    (hσ : ∀ e ∈ tag.settle c ν, σ e.1 = e.2) : tag.missed σ = c.violation ν := by
  obtain ⟨o, ho, hok⟩ := hf.exists_other hr
  have hm : σ tag.marker = max (-(c.sense * c.expression.eval ν)) 0 :=
    hσ (tag.marker, _) (by simp [settle])
  have hoσ : σ o = max (c.sense * c.expression.eval ν) 0 :=
    hσ (o, _) (by simp [settle, ho])
  cases hrel : c.relation with
  | equalTo =>
      rw [hf.missed_of_equalTo hrel hr ho hok, Constraint.violation_of_equalTo hrel, hm, hoσ,
        Constraint.sense_of_equalTo hrel, if_neg (by simp [hr])]
      simp
  | lessOrEqual =>
      rw [hf.missed_of_ne (by simp [hrel]) ho hok, Constraint.violation_of_lessOrEqual hrel, hoσ,
        Constraint.sense_of_lessOrEqual hrel, one_mul]
  | greaterOrEqual =>
      rw [hf.missed_of_ne (by simp [hrel]) ho hok, Constraint.violation_of_greaterOrEqual hrel,
        hoσ, Constraint.sense_of_greaterOrEqual hrel, neg_one_mul]

end Settling

end Balance

section Lists

variable {t : Tableau Rat} {l : List (Constraint Rat × Tag)} {ν : Variable → Rat}
  {σ : Symbol → Rat}

/-- Constraints with fitting tags of known symbols that are not shared. -/
structure Wired (t : Tableau Rat) (l : List (Constraint Rat × Tag)) : Prop where
  fits : ∀ e ∈ l, e.2.Fits e.1
  knows : ∀ e ∈ l, ∀ x ∈ e.2.symbols, t.Knows x
  disjoint : (l.flatMap (·.2.symbols)).Nodup

/-- What the preferences of a list miss, weighted by their strengths. -/
def penalty (σ : Symbol → Rat) (l : List (Constraint Rat × Tag)) : Rat :=
  (l.map (fun e => e.1.strength.value * e.2.missed σ)).sum

/-- By how much a list of constraints is violated, weighted by their strengths;
required constraints do not count. -/
def regret (ν : Variable → Rat) (cs : List (Constraint Rat)) : Rat :=
  (cs.map (fun c =>
    if c.strength.isRequired then 0 else c.strength.value * c.violation ν)).sum

theorem Tag.missed_nonneg {tag : Tag} (hk : ∀ x ∈ tag.symbols, t.Knows x)
    (hσ : t.Lawful σ) : 0 ≤ tag.missed σ := by
  have hsymbol : ∀ x ∈ tag.symbols, 0 ≤ x.missed σ := by
    intro x hx
    unfold Symbol.missed
    split
    · rename_i he
      exact hσ.nonneg x (hk x hx) (Symbol.tier_of_error (beq_iff_eq.mp he))
    · exact Rat.le_refl
  unfold Tag.missed
  refine add_nonneg (hsymbol _ (by simp [Tag.symbols])) ?_
  cases ho : tag.other with
  | none => exact Rat.le_refl
  | some o => exact hsymbol o (by simp [Tag.symbols, ho])

theorem penalty_nonneg (hpos : ∀ e ∈ l, 0 ≤ e.1.strength.value)
    (hk : ∀ e ∈ l, ∀ x ∈ e.2.symbols, t.Knows x) (hσ : t.Lawful σ) : 0 ≤ penalty σ l := by
  refine List.sum_nonneg (fun x hx => ?_)
  obtain ⟨e, he, rfl⟩ := List.mem_map.mp hx
  exact mul_nonneg (hpos e he) (Tag.missed_nonneg (hk e he) hσ)

/-- Lawful symbols that balance every constraint miss at least what the
preferences are violated by. -/
theorem Wired.regret_le_penalty (hw : Wired t l) (hpos : ∀ e ∈ l, 0 ≤ e.1.strength.value)
    (hb : ∀ e ∈ l, e.2.Balances e.1 ν σ) (hσ : t.Lawful σ) :
    regret ν (l.map (·.1)) ≤ penalty σ l := by
  unfold regret penalty
  rw [List.map_map]
  refine List.sum_le_sum (fun e he => ?_)
  rw [Function.comp_apply]
  split
  · exact mul_nonneg (hpos e he) (Tag.missed_nonneg (hw.knows e he) hσ)
  · rename_i hr
    exact mul_le_mul_of_nonneg_left
      ((hb e he).violation_le (hw.fits e he) (by simpa using hr) (hw.knows e he) hσ) (hpos e he)

/-- The values that a list of symbols is given, and zero for all others. -/
def assignment (l : List (Symbol × Rat)) (x : Symbol) : Rat :=
  ((OrderedMap.mk l).get? x).getD 0

theorem assignment_of_mem {l : List (Symbol × Rat)} (h : (l.map (·.1)).Nodup)
    {e : Symbol × Rat} (he : e ∈ l) : assignment l e.1 = e.2 := by
  have hget : (OrderedMap.mk l).get? e.1 = some e.2 :=
    (OrderedMap.get?_eq_some_iff (m := OrderedMap.mk l) h).mpr he
  rw [assignment, hget, Option.getD_some]

/-- A property of zero and of the given values is a property of all values. -/
theorem assignment_induction {l : List (Symbol × Rat)} {x : Symbol} {p : Rat → Prop}
    (hzero : p 0) (hmem : ∀ e ∈ l, e.1 = x → p e.2) : p (assignment l x) := by
  unfold assignment
  cases hget : (OrderedMap.mk l).get? x with
  | none => exact hzero
  | some v =>
      obtain ⟨y, hy, hyx⟩ := OrderedMap.mem_of_get? hget
      exact hmem (y, v) hy (beq_iff_eq.mp hyx)

/-- The symbols of the variables and of the constraints may have any values, and all
others may be zero. -/
theorem Wired.exists_assignment (hw : Wired t l)
    {m : OrderedMap Variable (VariableEntry Rat)} {demand : Variable → Nat}
    (hm : Counted t m demand) (ν : Variable → Rat)
    {g : Constraint Rat × Tag → List (Symbol × Rat)}
    (hg : ∀ e, (g e).map (·.1) = e.2.symbols) :
    ∃ σ : Symbol → Rat, (∀ e ∈ m.entries, σ e.2.symbol = ν e.1) ∧
      (∀ e ∈ l, ∀ d ∈ g e, σ d.1 = d.2) ∧
      ∀ x, x.tier ≤ 1 → σ x = 0 ∨ ∃ e ∈ l, (x, σ x) ∈ g e := by
  let values := m.entries.map (fun e => (e.2.symbol, ν e.1)) ++ l.flatMap g
  have hexternal : ∀ e ∈ m.entries, e.2.symbol.tier = 2 := by
    intro e he
    simp [Symbol.tier, (hm.symbols e he).2, SymbolKind.tier]
  have hnodup : (values.map (·.1)).Nodup := by
    have hfst : values.map (·.1) = m.entries.map (·.2.symbol) ++ l.flatMap (·.2.symbols) := by
      simp only [values, List.map_append, List.map_map, List.map_flatMap, hg]
      rfl
    rw [hfst]
    refine List.nodup_append'.mpr ⟨hm.distinct, hw.disjoint, ?_⟩
    intro x hx hx'
    obtain ⟨e, he, rfl⟩ := List.mem_map.mp hx
    obtain ⟨d, hd, hxd⟩ := List.mem_flatMap.mp hx'
    have hle := (hw.fits d hd).tier_le hxd
    rw [hexternal e he] at hle
    omega
  refine ⟨assignment values, fun e he => ?_, fun e he d hd => ?_, fun x hx => ?_⟩
  · exact assignment_of_mem hnodup (e := (e.2.symbol, ν e.1))
      (List.mem_append_left _ (List.mem_map.mpr ⟨e, he, rfl⟩))
  · exact assignment_of_mem hnodup
      (List.mem_append_right _ (List.mem_flatMap.mpr ⟨e, he, hd⟩))
  · refine assignment_induction (p := fun v => v = 0 ∨ ∃ e ∈ l, (x, v) ∈ g e) (Or.inl rfl) ?_
    intro d hd hdx
    subst hdx
    rcases List.mem_append.mp hd with hd | hd
    · obtain ⟨e, he, rfl⟩ := List.mem_map.mp hd
      have := hexternal e he
      dsimp only at hx
      omega
    · obtain ⟨e, he, hd⟩ := List.mem_flatMap.mp hd
      exact Or.inr ⟨e, he, hd⟩

/-- Values that satisfy the required constraints extend to lawful symbols that
balance every constraint and miss the preferences by no more than necessary. -/
theorem Wired.exists_settled (hw : Wired t l)
    {m : OrderedMap Variable (VariableEntry Rat)} {demand : Variable → Nat}
    (hm : Counted t m demand)
    (hv : ∀ e ∈ l, e.1.strength.isRequired = true → e.1.Holds ν) :
    ∃ σ, t.Lawful σ ∧ (∀ e ∈ m.entries, σ e.2.symbol = ν e.1) ∧
      (∀ e ∈ l, e.2.Balances e.1 ν σ) ∧ penalty σ l = regret ν (l.map (·.1)) := by
  obtain ⟨σ, hvariables, hsettled, hother⟩ := hw.exists_assignment hm ν
    (fun e => Tag.map_fst_settle e.2 e.1 ν)
  refine ⟨σ, ⟨fun x _ ht => ?_, fun x _ ht => ?_⟩, hvariables, ?_, ?_⟩
  · rcases hother x (by omega) with hzero | ⟨e, -, hx⟩
    · exact hzero.ge
    · exact Tag.nonneg_of_mem_settle hx
  · rcases hother x (by omega) with hzero | ⟨e, he, hx⟩
    · exact hzero
    · exact Tag.zero_of_mem_settle (hw.fits e he) (hv e he) hx ht
  · intro e he
    exact Tag.balances_of_settle (hw.fits e he) (hv e he) (hsettled e he)
  · unfold penalty regret
    rw [List.map_map]
    refine congrArg List.sum (List.map_congr_left (fun e he => ?_))
    rw [Function.comp_apply]
    cases hr : e.1.strength.isRequired with
    | true => rw [(hw.fits e he).missed_of_required hr, mul_zero, if_pos rfl]
    | false =>
        rw [Tag.missed_of_settle (hw.fits e he) hr (hsettled e he)]
        exact (if_neg (by simp)).symm

end Lists

end Tether
