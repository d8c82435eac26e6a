import Mathlib.Data.List.Basic
import Tether.Simplex.Row

/-!
# Choosing the least

The tie rule of every pivot choice is one left fold.  What it chooses is one
of the candidates, and it chooses nothing only if no candidate passes the
test.
-/

namespace Tether
namespace Simplex

variable {α : Type} [Scalar α] (admits : α → Bool)

theorem improve_eq_or (best : Option (Cell α)) (c : Cell α) :
    improve admits best c = some c ∨ improve admits best c = best := by
  cases best with
  | none => by_cases h : admits c.2 = true <;> simp [improve, h]
  | some b => by_cases h : Scalar.less c.2 b.2 = true <;> simp [improve, h]

/-- The fold keeps a candidate: the best so far or one of the rest. -/
theorem mem_foldl_improve {l : List (Cell α)} {best : Option (Cell α)} {c : Cell α}
    (h : l.foldl (improve admits) best = some c) : best = some c ∨ c ∈ l := by
  induction l generalizing best with
  | nil => exact Or.inl h
  | cons d rest ih =>
      rcases ih h with h | h
      · rcases improve_eq_or admits best d with he | he
        · rw [he] at h
          cases h
          exact Or.inr (by simp)
        · exact Or.inl (he ▸ h)
      · exact Or.inr (List.mem_cons_of_mem d h)

theorem exists_mem_of_least? {l : List (Cell α)} {x : Symbol} (h : least? admits l = some x) :
    ∃ v, (x, v) ∈ l := by
  obtain ⟨c, hc, rfl⟩ := Option.map_eq_some_iff.mp h
  rcases mem_foldl_improve admits hc with h | h
  · cases h
  · exact ⟨c.2, h⟩

theorem isSome_foldl_improve (l : List (Cell α)) (b : Cell α) :
    (l.foldl (improve admits) (some b)).isSome = true := by
  induction l generalizing b with
  | nil => rfl
  | cons d rest ih =>
      rw [List.foldl_cons]
      rcases improve_eq_or admits (some b) d with he | he
      · rw [he]
        exact ih d
      · rw [he]
        exact ih b

theorem least?_eq_none_iff {l : List (Cell α)} :
    least? admits l = none ↔ ∀ c ∈ l, admits c.2 = false := by
  induction l with
  | nil => simp [least?]
  | cons d rest ih =>
      unfold least? at ih ⊢
      rw [List.foldl_cons, List.forall_mem_cons]
      by_cases hd : admits d.2 = true
      · have himp : improve admits none d = some d := by simp [improve, hd]
        have hsome := isSome_foldl_improve admits rest d
        rw [himp]
        constructor
        · intro hn
          rw [Option.map_eq_none_iff] at hn
          rw [hn] at hsome
          cases hsome
        · rintro ⟨hf, -⟩
          rw [hd] at hf
          cases hf
      · have hf : admits d.2 = false := by simpa using hd
        have himp : improve admits none d = none := by simp [improve, hf]
        rw [himp, ih]
        exact ⟨fun h => ⟨hf, h⟩, fun h => h.2⟩

end Simplex
end Tether
