import Mathlib.Data.Finset.Card
import Tether.Proofs.Outcome

/-!
# When loops and calls end

A call ends if it is not unfinished under some limit.  A larger limit never
changes what a call comes to, so a sequence of calls ends exactly if each of
them does.

A loop that never comes back to a value of some measure ends, if the measure
takes finitely many values.  A loop that comes back to a state from which the
same happens again never ends.
-/

namespace Tether
namespace Simplex

variable {β γ σ : Type}

section Limits

/-- Once a call is not unfinished, a larger limit does not change what it comes
to. -/
def Steady (o : Nat → Except Halt β) : Prop :=
  ∀ n m, n ≤ m → o n ≠ .error .unfinished → o m = o n

/-- Under some limit the call is not unfinished. -/
def Ends (o : Nat → Except Halt β) : Prop :=
  ∃ n, o n ≠ .error .unfinished

variable {o : Nat → Except Halt β} {f : Nat → β → Except Halt γ}

theorem steady_const (r : Except Halt β) : Steady (fun _ => r) :=
  fun _ _ _ _ => rfl

theorem ends_ok (b : β) : Ends (fun _ => (.ok b : Except Halt β)) :=
  ⟨0, by simp⟩

theorem map_ne_unfinished_iff {r : Except Halt β} {g : β → γ} :
    r.map g ≠ .error .unfinished ↔ r ≠ .error .unfinished := by
  cases r <;> simp [Except.map]

theorem Steady.map (h : Steady o) (g : β → γ) : Steady (fun n => (o n).map g) := by
  intro n m hnm hn
  dsimp only at hn ⊢
  rw [h n m hnm (map_ne_unfinished_iff.mp hn)]

theorem ends_map_iff {g : β → γ} : Ends (fun n => (o n).map g) ↔ Ends o :=
  exists_congr (fun _ => map_ne_unfinished_iff)

/-- A sequence that is not unfinished has a first part that is not. -/
theorem ne_unfinished_of_bind {r : Except Halt β} {g : β → Except Halt γ}
    (h : r.bind g ≠ .error .unfinished) : r ≠ .error .unfinished := by
  rintro rfl
  exact h rfl

theorem Steady.bind (h : Steady o) (hf : ∀ b, Steady (fun n => f n b)) :
    Steady (fun n => (o n).bind (f n)) := by
  intro n m hnm hn
  dsimp only at hn ⊢
  rw [h n m hnm (ne_unfinished_of_bind hn)]
  cases ho : o n with
  | error halt => rfl
  | ok b =>
      rw [ho] at hn
      exact hf b n m hnm hn

/-- A sequence ends exactly if its first part does, and so does what follows its
answer. -/
theorem Steady.ends_bind_iff (h : Steady o) (hf : ∀ b, Steady (fun n => f n b)) :
    Ends (fun n => (o n).bind (f n)) ↔
      Ends o ∧ ∀ n b, o n = .ok b → Ends (fun m => f m b) := by
  constructor
  · rintro ⟨k, hk⟩
    have hfirst := ne_unfinished_of_bind hk
    refine ⟨⟨k, hfirst⟩, fun n b hb => ⟨max n k, ?_⟩⟩
    have hmax := (h.bind hf) k (max n k) (Nat.le_max_right n k) hk
    have hn := h n (max n k) (Nat.le_max_left n k) (by simp [hb])
    dsimp only at hmax
    rw [hn, hb] at hmax
    intro hun
    exact hk (hmax.symm.trans hun)
  · rintro ⟨⟨k, hk⟩, hrest⟩
    cases ho : o k with
    | error halt =>
        refine ⟨k, ?_⟩
        dsimp only
        rw [ho] at hk ⊢
        simpa [Except.bind] using hk
    | ok b =>
        obtain ⟨m, hm⟩ := hrest k b ho
        refine ⟨max k m, ?_⟩
        have hfirst := h k (max k m) (Nat.le_max_left k m) hk
        have hsecond := hf b m (max k m) (Nat.le_max_right k m) hm
        dsimp only at hsecond ⊢
        rw [hfirst, ho, Except.bind, hsecond]
        exact hm

variable {step : σ → Step σ}

theorem iterate_eq_unfinished_or_ok (step : σ → Step σ) (limit : Nat) (s : σ) :
    iterate step limit s = .error .unfinished ∨ ∃ p, iterate step limit s = .ok p := by
  induction limit generalizing s with
  | zero =>
      unfold iterate
      cases step s with
      | finished t => exact Or.inr ⟨_, rfl⟩
      | stuck t why => exact Or.inr ⟨_, rfl⟩
      | pivoted t => exact Or.inl rfl
  | succ limit ih =>
      unfold iterate
      cases step s with
      | finished t => exact Or.inr ⟨_, rfl⟩
      | stuck t why => exact Or.inr ⟨_, rfl⟩
      | pivoted t => exact ih t

theorem steady_iterate (step : σ → Step σ) (s : σ) :
    Steady (fun limit => iterate step limit s) := by
  intro n m hnm hn
  obtain ⟨p, hp⟩ := (iterate_eq_unfinished_or_ok step n s).resolve_left hn
  dsimp only
  rw [hp]
  exact iterate_mono step hnm s hp

end Limits

section Returning

variable {step : σ → Step σ} {s t u : σ}

theorem Visits.trans (h : Visits step s t) (h' : Visits step t u) : Visits step s u := by
  induction h with
  | here => exact h'
  | later hp _ ih => exact .later hp (ih h')

/-- At least one pivot leads from the one state to the other. -/
def Precedes (step : σ → Step σ) (s u : σ) : Prop :=
  ∃ t, step s = .pivoted t ∧ Visits step t u

theorem Precedes.visits (h : Precedes step s u) : Visits step s u := by
  obtain ⟨t, hp, hv⟩ := h
  exact .later hp hv

/-- One more pivot. -/
theorem Visits.precedes (h : Visits step s t) (hp : step t = .pivoted u) :
    Precedes step s u := by
  induction h with
  | here => exact ⟨u, hp, .here u⟩
  | later hp' _ ih => exact ⟨_, hp', (ih hp).visits⟩

/-- If a loop comes back to a state like one that it came from, then it never
ends: what happened in between happens again. -/
theorem iterate_of_returns {R : σ → σ → Prop}
    (hagain : ∀ t u t', R t u → step t = .pivoted t' → ∃ u', step u = .pivoted u' ∧ R t' u')
    (limit : Nat) (h : Precedes step t u) (hr : R t u) :
    iterate step limit t = .error .unfinished := by
  induction limit generalizing t u with
  | zero =>
      obtain ⟨t', hp, -⟩ := h
      rw [iterate, hp]
  | succ limit ih =>
      obtain ⟨t', hp, hv⟩ := h
      obtain ⟨u', hp', hr'⟩ := hagain t u t' hr hp
      rw [iterate_of_pivoted hp]
      exact ih (hv.precedes hp') hr'

/-- What a loop comes to does not end if the loop does not. -/
theorem Visits.iterate_unfinished (h : Visits step s t)
    (ht : ∀ limit, iterate step limit t = .error .unfinished) (limit : Nat) :
    iterate step limit s = .error .unfinished := by
  induction h generalizing limit with
  | here => exact ht limit
  | later hp _ ih =>
      cases limit with
      | zero => rw [iterate, hp]
      | succ limit =>
          rw [iterate_of_pivoted hp]
          exact ih ht limit

/-- A loop ends that never comes back to a value of a measure with finitely many
values, and makes fewer pivots than there are values. -/
theorem exists_iterate_of_never_returns {δ : Type} [DecidableEq δ] {f : σ → δ}
    {V : Finset δ} (hmem : ∀ t, Visits step s t → f t ∈ V)
    (hnever : ∀ t u, Visits step s t → Precedes step t u → f u ≠ f t) :
    ∃ p, iterate step V.card s = .ok p := by
  induction hn : V.card generalizing s V with
  | zero =>
      have hs := hmem s (.here s)
      rw [Finset.card_eq_zero.mp hn] at hs
      exact absurd hs (Finset.notMem_empty _)
  | succ n ih =>
      have hs := hmem s (.here s)
      cases hp : step s with
      | finished t => exact ⟨_, by rw [iterate, hp]⟩
      | stuck t why => exact ⟨_, by rw [iterate, hp]⟩
      | pivoted t =>
          rw [iterate_of_pivoted hp]
          -- what is left of the loop does not come back to where it is now
          refine ih (V := V.erase (f s)) (fun u hu => ?_)
            (fun u w hu hw => hnever u w (.later hp hu) hw) ?_
          · exact Finset.mem_erase.mpr
              ⟨hnever s u (.here s) ⟨t, hp, hu⟩, hmem u (.later hp hu)⟩
          · rw [Finset.card_erase_of_mem hs, hn, Nat.add_sub_cancel]

end Returning

section Following

/-- The state after a number of pivots, if the loop makes that many. -/
def after (step : σ → Step σ) : Nat → σ → Option σ
  | 0, s => some s
  | n + 1, s =>
      match step s with
      | .pivoted t => after step n t
      | _ => none

variable {step : σ → Step σ} {s u : σ}

theorem visits_of_after {n : Nat} (h : after step n s = some u) : Visits step s u := by
  induction n generalizing s with
  | zero =>
      obtain rfl := Option.some.inj h
      exact .here s
  | succ n ih =>
      unfold after at h
      cases hp : step s with
      | finished t => simp [hp] at h
      | stuck t why => simp [hp] at h
      | pivoted t =>
          simp only [hp] at h
          exact .later hp (ih h)

theorem precedes_of_after {n : Nat} (h : after step (n + 1) s = some u) :
    Precedes step s u := by
  unfold after at h
  cases hp : step s with
  | finished t => simp [hp] at h
  | stuck t why => simp [hp] at h
  | pivoted t =>
      simp only [hp] at h
      exact ⟨t, hp, visits_of_after h⟩

end Following

end Simplex
end Tether
