import Tether.Proofs.Row.Choice
import Tether.Proofs.Solver.LedgerInsertion
import Tether.Scalar.Binary64
import Tether.Scalar.Rational

/-!
# A preference always has a subject

A constraint that is not required brings in two symbols with opposite
coefficients, so one of them has a negative coefficient whatever the row, and
the row can be solved for it.  A preference is therefore never rejected.

All that this asks of the arithmetic is that it can tell the signs of one and
minus one, in the few shapes in which a new row holds them.
-/

namespace Tether

open Simplex

section UnitSigns

/-- The signs of one and minus one are told apart, also after they have been
added to zero or negated. -/
class UnitSigns (α : Type) [Scalar α] : Prop where
  keeps_one : Scalar.nearZero (Scalar.zero + Scalar.one : α) = false
  keeps_neg : Scalar.nearZero (Scalar.zero + -Scalar.one : α) = false
  keeps_neg_neg : Scalar.nearZero (Scalar.zero + - -Scalar.one : α) = false
  negative_neg : Scalar.negative (Scalar.zero + -Scalar.one : α) = true
  negative_negated_one : Scalar.negative (-(Scalar.zero + Scalar.one) : α) = true
  negative_negated_neg_neg : Scalar.negative (-(Scalar.zero + - -Scalar.one) : α) = true

instance : UnitSigns Rat := by
  constructor <;> decide +kernel

instance : UnitSigns Coarse := by
  constructor <;> decide +kernel

instance : UnitSigns Binary64 := by
  constructor <;> decide +kernel

end UnitSigns

namespace Simplex
namespace Row

variable {α : Type} [Scalar α]

/-- A cell of a new symbol goes to the end. -/
theorem insertCell_of_forall_lt {l : List (Cell α)} {s : Symbol} (h : ∀ c ∈ l, c.1.id < s.id)
    (x : α) : insertCell s x l = l ++ consCell s (Scalar.zero + x) [] := by
  induction l with
  | nil => rfl
  | cons c rest ih =>
      obtain ⟨t, y⟩ := c
      have ht : t.id < s.id := h (t, y) (by simp)
      have hne : s ≠ t := by
        rintro rfl
        exact Nat.lt_irrefl _ ht
      rw [insertCell, if_neg (by omega), if_neg hne,
        ih (fun c hc => h c (List.mem_cons_of_mem _ hc))]
      rfl

theorem cells_insert_new {r : Row α} {s : Symbol} (h : ∀ y ∈ r.symbols, y.id < s.id) {x : α}
    (hx : Scalar.nearZero (Scalar.zero + x) = false) :
    (r.insert s x).cells = r.cells ++ [(s, Scalar.zero + x)] := by
  unfold insert
  rw [insertCell_of_forall_lt (fun c hc => h c.1 (List.mem_map_of_mem hc))]
  simp [consCell, hx]

theorem get?_negate (r : Row α) (s : Symbol) : r.negate.get? s = (r.get? s).map (- ·) := by
  simp [get?, negate, List.find?_map, Function.comp_def]

end Row
end Simplex

namespace Solver

variable {α : Type} [Scalar α]

/-- Two coefficients of which one is negative, before and after a negation. -/
structure Splits (a b : α) : Prop where
  keeps_left : Scalar.nearZero (Scalar.zero + a) = false
  keeps_right : Scalar.nearZero (Scalar.zero + b) = false
  plain : Scalar.negative (Scalar.zero + a) = true ∨ Scalar.negative (Scalar.zero + b) = true
  negated : Scalar.negative (-(Scalar.zero + a)) = true ∨
    Scalar.negative (-(Scalar.zero + b)) = true

/-- Two new symbols whose coefficients split are free in the row, whatever its
sign. -/
theorem exists_isFreeSubject {r : Row α} {x y : Symbol} {a b : α} (hab : Splits a b)
    (hr : ∀ z ∈ r.symbols, z.id < x.id) (hxy : x.id < y.id) (hx : x.isPivotable = true)
    (hy : y.isPivotable = true) (flip : Bool) :
    ∃ z ∈ [x, y], isFreeSubject
      (if flip then ((r.insert x a).insert y b).negate
        else (r.insert x a).insert y b) z = true := by
  have hne : x ≠ y := by
    rintro rfl
    exact Nat.lt_irrefl _ hxy
  have hfirst := Row.cells_insert_new hr hab.keeps_left
  have hlt : ∀ z ∈ (r.insert x a).symbols, z.id < y.id := by
    intro z hz
    rcases Row.mem_symbols_insert hz with rfl | hz
    · exact hxy
    · exact Nat.lt_trans (hr z hz) hxy
  have hsecond := Row.cells_insert_new hlt hab.keeps_right
  rw [hfirst, List.append_assoc] at hsecond
  have hfind : ∀ z, (∀ w ∈ r.symbols, w.id < z.id) →
      r.cells.find? (fun c => c.1 == z) = none := by
    intro z hz
    rw [List.find?_eq_none]
    intro c hc he
    have := hz c.1 (List.mem_map_of_mem hc)
    rw [beq_iff_eq.mp he] at this
    exact Nat.lt_irrefl _ this
  have hgx : ((r.insert x a).insert y b).get? x = some (Scalar.zero + a) := by
    simp [Row.get?, hsecond, List.find?_append, hfind x hr]
  have hgy : ((r.insert x a).insert y b).get? y = some (Scalar.zero + b) := by
    simp [Row.get?, hsecond, List.find?_append,
      hfind y (fun w hw => Nat.lt_trans (hr w hw) hxy), hne]
  cases flip with
  | false =>
      rcases hab.plain with h | h
      · exact ⟨x, by simp, by simp [isFreeSubject, hx, Row.coefficient, hgx, h]⟩
      · exact ⟨y, by simp, by simp [isFreeSubject, hy, Row.coefficient, hgy, h]⟩
  | true =>
      rcases hab.negated with h | h
      · exact ⟨x, by simp, by simp [isFreeSubject, hx, Row.coefficient, Row.get?_negate, hgx, h]⟩
      · exact ⟨y, by simp, by simp [isFreeSubject, hy, Row.coefficient, Row.get?_negate, hgy, h]⟩

theorem subject?_ne_none {r : Row α} {tag : Tag}
    (h : ∃ x ∈ tag.symbols, isFreeSubject r x = true) : subject? r tag ≠ none := by
  obtain ⟨x, hx, hf⟩ := h
  have hfind : (tag.symbols.find? (isFreeSubject r)).isSome = true := by
    rw [List.find?_isSome]
    exact ⟨x, hx, hf⟩
  unfold subject?
  dsimp only
  intro hn
  simp only [Option.map_eq_none_iff, Option.or_eq_none_iff] at hn
  rw [hn.2.2] at hfind
  cases hfind

variable [UnitSigns α]

theorem splits_slack_above : Splits (Scalar.one : α) (-Scalar.one) :=
  ⟨UnitSigns.keeps_one, UnitSigns.keeps_neg, Or.inr UnitSigns.negative_neg,
    Or.inl UnitSigns.negative_negated_one⟩

theorem splits_slack_below : Splits (-Scalar.one : α) (- -Scalar.one) :=
  ⟨UnitSigns.keeps_neg, UnitSigns.keeps_neg_neg, Or.inl UnitSigns.negative_neg,
    Or.inr UnitSigns.negative_negated_neg_neg⟩

theorem splits_errors : Splits (-Scalar.one : α) Scalar.one :=
  ⟨UnitSigns.keeps_neg, UnitSigns.keeps_one, Or.inl UnitSigns.negative_neg,
    Or.inr UnitSigns.negative_negated_one⟩

/-- The row of a preference has a subject. -/
theorem subject?_createRow {s : Solver α} (hs : s.Ledger) {c : Constraint α}
    (hc : c.strength.isRequired = false) :
    subject? (s.createRow c).1 (s.createRow c).2.1 ≠ none := by
  have hd := hs.draft_addTerms c
  have hlt : ∀ z ∈ (s.addTerms c).1.symbols, z.id < (s.addTerms c).2.tableau.symbolCount :=
    fun z hz => (hd.2.parametric z hz).1.id_lt
  have hnext : ∀ (u : Solver α) (kind kind' : SymbolKind),
      (u.newSymbol kind).1.id < ((u.newSymbol kind).2.newSymbol kind').1.id :=
    fun u kind kind' => (Tableau.knows_newSymbol u.tableau kind).id_lt
  refine subject?_ne_none ?_
  rw [createRow_eq]
  dsimp only
  unfold addMarkers
  cases c.relation with
  | lessOrEqual =>
      have := exists_isFreeSubject splits_slack_above hlt
        (hnext (s.addTerms c).2 .slack .error) rfl rfl
      simp only [addSlack, hc]
      exact this _
  | greaterOrEqual =>
      have := exists_isFreeSubject splits_slack_below hlt
        (hnext (s.addTerms c).2 .slack .error) rfl rfl
      simp only [addSlack, hc]
      exact this _
  | equalTo =>
      have := exists_isFreeSubject splits_errors hlt
        (hnext (s.addTerms c).2 .error .error) rfl rfl
      simp only [addErrors, hc]
      exact this _

/-- A preference is never rejected. -/
theorem ensures_add_preference {s : Solver α} (hs : s.Ledger) {c : Constraint α}
    (hc : c.strength.isRequired = false) (limit : Nat) :
    Ensures (s.add limit c) (fun p => p.2 ≠ .error .unsatisfiableConstraint) := by
  have hsubject := subject?_createRow hs hc
  refine ensures_add (fun _ h => ?_) (fun _ _ _ => ensures_install_ne ?_ limit _ c _)
    (fun _ hn => absurd hn hsubject) (fun _ _ _ => ensures_install_ne ?_ limit _ c _)
    (fun _ hn => absurd hn hsubject)
  · cases h
  · exact fun _ he => by cases he
  · exact fun _ he => by cases he

end Solver
end Tether
