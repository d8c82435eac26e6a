import Mathlib.Algebra.Order.Ring.Rat
import Tether.Proofs.Row.Symbols
import Tether.Scalar.Binary64
import Tether.Scalar.Rational

/-!
# Specks

A speck is a cell whose coefficient counts as zero.  Adding to a coefficient drops
the cell if the sum is near zero, so nothing that is made of insertions brings in a
speck: neither adding a row, nor substituting one, nor drafting a new one.  Scaling
makes no such test, so a row that is solved for a symbol may have specks that the
equation did not have.
-/

namespace Tether

open Simplex

section Tolerance

/-- A number counts as zero if and only if its negative does, and zero itself equals
zero and is not negative. -/
class EvenTolerance (α : Type) [Scalar α] : Prop where
  nearZero_neg (x : α) : Scalar.nearZero (-x) = Scalar.nearZero x
  isZero_zero : Scalar.isZero (Scalar.zero : α) = true
  negative_zero : Scalar.negative (Scalar.zero : α) = false

namespace Binary64

/-- Bits that a mask hides may be flipped. -/
theorem xor_and_of_disjoint {m k : UInt64} (h : m &&& k = 0) (b : UInt64) :
    (b ^^^ m) &&& k = b &&& k := by
  rw [← UInt64.toBitVec_inj] at h ⊢
  simp only [UInt64.toBitVec_and, UInt64.toBitVec_xor] at h ⊢
  ext i hi
  have hbit := congrArg (fun v => v[i]) h
  simp only [BitVec.getElem_and, BitVec.getElem_xor] at hbit ⊢
  change _ = (0#64)[i] at hbit
  rw [BitVec.getElem_zero] at hbit
  revert hbit
  cases b.toBitVec[i] <;> cases m.toBitVec[i] <;> cases k.toBitVec[i] <;> decide

theorem abs_neg (x : Binary64) : x.neg.abs = x.abs :=
  congrArg Binary64.mk (xor_and_of_disjoint (by decide) x.bits)

end Binary64

instance : EvenTolerance Rat where
  nearZero_neg x := decide_eq_decide.mpr neg_eq_zero
  isZero_zero := by decide
  negative_zero := by decide

instance : EvenTolerance Binary64 where
  nearZero_neg x := congrArg (Binary64.less · (.ofDecimal 1 (-8))) (Binary64.abs_neg x)
  isZero_zero := by decide +kernel
  negative_zero := by decide +kernel

end Tolerance

namespace Simplex
namespace Row

variable {α : Type} [Scalar α] {r : Row α} {c : Cell α} {s : Symbol}

/-- The cells whose coefficient counts as zero. -/
def specks (r : Row α) : List (Cell α) :=
  r.cells.filter (fun c => Scalar.nearZero c.2)

theorem mem_specks : c ∈ r.specks ↔ c ∈ r.cells ∧ Scalar.nearZero c.2 = true :=
  List.mem_filter

section Inserting

/-- Adding to a coefficient leaves no new speck. -/
theorem specks_insert_subset (r : Row α) (s : Symbol) (x : α) :
    (r.insert s x).specks ⊆ r.specks := by
  intro c hc
  obtain ⟨hm, hz⟩ := mem_specks.mp hc
  rcases mem_of_mem_insertCell hm with ⟨-, hn⟩ | hm
  · exact absurd hz (Bool.eq_false_iff.mp hn)
  · exact mem_specks.mpr ⟨hm, hz⟩

theorem specks_addRow_subset (r other : Row α) (factor : α) :
    (r.addRow other factor).specks ⊆ r.specks :=
  addRow_induction (motive := fun q => q.specks ⊆ r.specks) (List.Subset.refl _)
    (fun q s x _ hq => List.Subset.trans (specks_insert_subset q s x) hq)

theorem specks_erase_subset (r : Row α) (s : Symbol) : (r.erase s).specks ⊆ r.specks := by
  intro c hc
  obtain ⟨hm, hz⟩ := mem_specks.mp hc
  exact mem_specks.mpr ⟨List.mem_of_mem_eraseP hm, hz⟩

/-- Neither does putting a row in the place of a symbol. -/
theorem specks_substitute_subset (r : Row α) (s : Symbol) (replacement : Row α) :
    (r.substitute s replacement).specks ⊆ r.specks := by
  unfold substitute
  split
  · exact List.Subset.trans (specks_addRow_subset _ _ _) (specks_erase_subset r s)
  · exact List.Subset.refl _

theorem specks_negate_eq_nil [EvenTolerance α] (h : r.specks = []) : r.negate.specks = [] := by
  simp only [specks, List.filter_eq_nil_iff] at h ⊢
  intro c hc
  obtain ⟨d, hd, rfl⟩ := List.mem_map.mp hc
  rw [EvenTolerance.nearZero_neg]
  exact h d hd

end Inserting

end Row
end Simplex
end Tether
