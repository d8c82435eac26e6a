import Tether.Halt

/-!
# Pivot loops

A pivot loop repeats one step until the step has nothing more to do or
cannot go on.  The number of pivots is bounded by a limit that the caller
chooses; a loop that reaches it gives no answer, so a larger limit never
changes an answer.
-/

namespace Tether
namespace Simplex

/-- Why a pivot loop cannot go on. -/
inductive Breakdown
  /-- The objective can be lowered without bound. -/
  | unbounded
  /-- There is no artificial objective to lower. -/
  | noArtificial
  /-- A row that was recorded as infeasible has no row. -/
  | vanished
  /-- No symbol can make an infeasible row feasible. -/
  | noEntering
deriving DecidableEq

/-- What a breakdown is reported as. -/
def Breakdown.message : Breakdown → String
  | .unbounded => "the objective is unbounded"
  | .noArtificial => "artificial objective missing"
  | .vanished => "infeasible row vanished"
  | .noEntering => "dual optimize failed"

/-- What one step of a pivot loop comes to. -/
inductive Step (σ : Type)
  /-- Nothing is left to do. -/
  | finished (s : σ)
  /-- The loop cannot go on. -/
  | stuck (s : σ) (why : Breakdown)
  /-- One pivot was made. -/
  | pivoted (s : σ)

/-- The answer of a call that leaves a state behind, or no answer. -/
abbrev Outcome (σ ε : Type) : Type :=
  Except Halt (σ × Except ε Unit)

/-- Repeats a step, with at most as many pivots as the limit. -/
def iterate {σ : Type} (step : σ → Step σ) : Nat → σ → Outcome σ Breakdown
  | limit, s =>
      match step s with
      | .finished s' => .ok (s', .ok ())
      | .stuck s' why => .ok (s', .error why)
      | .pivoted s' =>
          match limit with
          | 0 => .error .unfinished
          | limit + 1 => iterate step limit s'

/-- An answer does not depend on the limit that it was found under. -/
theorem iterate_mono {σ : Type} (step : σ → Step σ) {n m : Nat} (h : n ≤ m) (s : σ)
    {r : σ × Except Breakdown Unit} (hr : iterate step n s = .ok r) :
    iterate step m s = .ok r := by
  induction n generalizing m s with
  | zero =>
      unfold iterate at hr ⊢
      split at hr <;> simp_all
  | succ n ih =>
      obtain ⟨m, rfl⟩ : ∃ k, m = k + 1 := ⟨m - 1, by omega⟩
      unfold iterate at hr ⊢
      split at hr <;> simp_all

end Simplex
end Tether
