import Tether.Simplex.Pivot

/-!
# Reasoning about answers

Two ways to speak of a computation that may halt.

* `Ensures` says what holds of the answer, if there is one.
* `Alike` compares two computations: both halt for the same reason, or both
  answer, and the answers are related.

For both there is one rule for every way in which calls are put together:
mapping, sequencing and the pivot loop.
-/

namespace Tether
namespace Simplex

variable {β γ δ ε σ τ : Type}

section Ensures

/-- If the computation answers, then the answer has the property. -/
def Ensures (o : Except Halt β) (Q : β → Prop) : Prop :=
  ∀ b, o = .ok b → Q b

theorem ensures_ok {Q : β → Prop} {b : β} (h : Q b) : Ensures (.ok b) Q := by
  intro b' hb
  cases hb
  exact h

theorem ensures_error {Q : β → Prop} (halt : Halt) : Ensures (.error halt) Q := by
  intro b hb
  cases hb

theorem exists_ok_of_any {o : Except Halt β} {p : β → Bool} (h : o.toOption.any p = true) :
    ∃ b, o = .ok b ∧ p b = true := by
  cases o with
  | error halt => cases h
  | ok b => exact ⟨b, rfl, h⟩

theorem Ensures.mono {o : Except Halt β} {P Q : β → Prop} (h : Ensures o P)
    (hPQ : ∀ b, P b → Q b) : Ensures o Q :=
  fun b hb => hPQ b (h b hb)

theorem Ensures.and {o : Except Halt β} {P Q : β → Prop} (h : Ensures o P)
    (h' : Ensures o Q) : Ensures o (fun b => P b ∧ Q b) :=
  fun b hb => ⟨h b hb, h' b hb⟩

theorem Ensures.map {o : Except Halt β} {f : β → γ} {Q : γ → Prop}
    (h : Ensures o (fun b => Q (f b))) : Ensures (o.map f) Q := by
  cases o with
  | error halt => exact ensures_error halt
  | ok b => exact ensures_ok (h b rfl)

theorem Ensures.bind {o : Except Halt β} {f : β → Except Halt γ} {Q : γ → Prop}
    (h : Ensures o (fun b => Ensures (f b) Q)) : Ensures (o.bind f) Q := by
  cases o with
  | error halt => exact ensures_error halt
  | ok b => exact h b rfl

/-- What a step has to achieve in a loop: keep the invariant if it pivots, and
reach the goal if it does not. -/
def Step.Keeps (I : σ → Prop) (Q : σ × Except Breakdown Unit → Prop) : Step σ → Prop
  | .finished s => Q (s, .ok ())
  | .stuck s why => Q (s, .error why)
  | .pivoted s => I s

theorem Step.Keeps.mono {I J : σ → Prop} {Q R : σ × Except Breakdown Unit → Prop} {r : Step σ}
    (h : r.Keeps I Q) (hIJ : ∀ s, I s → J s) (hQR : ∀ p, Q p → R p) : r.Keeps J R := by
  cases r with
  | finished s => exact hQR _ h
  | stuck s why => exact hQR _ h
  | pivoted s => exact hIJ s h

theorem Step.Keeps.and {I J : σ → Prop} {Q R : σ × Except Breakdown Unit → Prop} {r : Step σ}
    (h : r.Keeps I Q) (h' : r.Keeps J R) :
    r.Keeps (fun s => I s ∧ J s) (fun p => Q p ∧ R p) := by
  cases r with
  | finished s => exact ⟨h, h'⟩
  | stuck s why => exact ⟨h, h'⟩
  | pivoted s => exact ⟨h, h'⟩

theorem ensures_iterate {step : σ → Step σ} {I : σ → Prop}
    {Q : σ × Except Breakdown Unit → Prop} (hstep : ∀ s, I s → (step s).Keeps I Q)
    (limit : Nat) {s : σ} (hs : I s) : Ensures (iterate step limit s) Q := by
  induction limit generalizing s with
  | zero =>
      have h := hstep s hs
      unfold iterate
      cases hr : step s with
      | finished s' => rw [hr] at h; exact ensures_ok h
      | stuck s' why => rw [hr] at h; exact ensures_ok h
      | pivoted s' => exact ensures_error _
  | succ limit ih =>
      have h := hstep s hs
      unfold iterate
      cases hr : step s with
      | finished s' => rw [hr] at h; exact ensures_ok h
      | stuck s' why => rw [hr] at h; exact ensures_ok h
      | pivoted s' => rw [hr] at h; exact ih h

end Ensures

section Visiting

/-- The states that a pivot loop comes to, the first one included. -/
inductive Visits (step : σ → Step σ) : σ → σ → Prop
  | here (s : σ) : Visits step s s
  | later {s t u : σ} (h : step s = .pivoted t) (hu : Visits step t u) : Visits step s u

variable {step : σ → Step σ} {s t u : σ} {why : Breakdown}

/-- What every step of a loop keeps holds in every state that the loop comes to. -/
theorem Visits.keeps {I : σ → Prop} {Q : σ × Except Breakdown Unit → Prop}
    (h : Visits step s t) (hstep : ∀ s, I s → (step s).Keeps I Q) (hs : I s) : I t := by
  induction h with
  | here => exact hs
  | later hp _ ih =>
      have hkept := hstep _ hs
      rw [hp] at hkept
      exact ih hkept

theorem iterate_of_pivoted (h : step s = .pivoted t) (limit : Nat) :
    iterate step (limit + 1) s = iterate step limit t := by
  rw [iterate, h]

/-- A loop comes to a state where it gets stuck exactly if it breaks down under
some limit. -/
theorem exists_visits_stuck_iff : (∃ t, Visits step s t ∧ ∃ u why, step t = .stuck u why) ↔
    ∃ limit u why, iterate step limit s = .ok (u, .error why) := by
  constructor
  · rintro ⟨t, hvisits, u, why, hstuck⟩
    induction hvisits with
    | here s =>
        refine ⟨0, u, why, ?_⟩
        rw [iterate, hstuck]
    | later h _ ih =>
        obtain ⟨limit, u, why, hlimit⟩ := ih hstuck
        exact ⟨limit + 1, u, why, (iterate_of_pivoted h limit).trans hlimit⟩
  · rintro ⟨limit, u, why, hlimit⟩
    induction limit generalizing s with
    | zero =>
        unfold iterate at hlimit
        cases hr : step s with
        | finished s' => simp [hr] at hlimit
        | stuck s' why' => exact ⟨s, .here s, s', why', hr⟩
        | pivoted s' => simp [hr] at hlimit
    | succ limit ih =>
        cases hr : step s with
        | finished s' => simp [iterate, hr] at hlimit
        | stuck s' why' => exact ⟨s, .here s, s', why', hr⟩
        | pivoted s' =>
            rw [iterate_of_pivoted hr] at hlimit
            obtain ⟨t, hvisits, hstuck⟩ := ih hlimit
            exact ⟨t, .later hr hvisits, hstuck⟩

end Visiting

section Alike

/-- Both computations halt for one reason, or both answer with related
answers. -/
def Alike (R : β → γ → Prop) : Except Halt β → Except Halt γ → Prop
  | .ok b, .ok c => R b c
  | .error h, .error h' => h = h'
  | _, _ => False

theorem Alike.map {β' γ' : Type} {R : β → γ → Prop} {R' : β' → γ' → Prop}
    {o : Except Halt β} {o' : Except Halt γ} {f : β → β'} {g : γ → γ'}
    (h : Alike R o o') (hfg : ∀ b c, R b c → R' (f b) (g c)) :
    Alike R' (o.map f) (o'.map g) := by
  cases o with
  | error halt =>
      cases o' with
      | error halt' => exact h
      | ok c => exact h.elim
  | ok b =>
      cases o' with
      | error halt' => exact h.elim
      | ok c => exact hfg b c h

theorem Alike.bind {β' γ' : Type} {R : β → γ → Prop} {R' : β' → γ' → Prop}
    {o : Except Halt β} {o' : Except Halt γ} {f : β → Except Halt β'}
    {g : γ → Except Halt γ'} (h : Alike R o o')
    (hfg : ∀ b c, R b c → Alike R' (f b) (g c)) :
    Alike R' (o.bind f) (o'.bind g) := by
  cases o with
  | error halt =>
      cases o' with
      | error halt' => exact h
      | ok c => exact h.elim
  | ok b =>
      cases o' with
      | error halt' => exact h.elim
      | ok c => exact hfg b c h

/-- Related states and the same answer. -/
def SameAnswer (R : σ → τ → Prop) (p : σ × δ) (q : τ × δ) : Prop :=
  R p.1 q.1 ∧ p.2 = q.2

theorem Alike.answers_eq {R : σ → τ → Prop} {o : Except Halt (σ × δ)}
    {o' : Except Halt (τ × δ)} (h : Alike (SameAnswer R) o o') :
    o.map (·.2) = o'.map (·.2) := by
  cases o with
  | error halt =>
      cases o' with
      | error halt' => exact congrArg Except.error h
      | ok c => exact h.elim
  | ok b =>
      cases o' with
      | error halt' => exact h.elim
      | ok c => exact congrArg Except.ok h.2

/-- Two steps come to the same thing. -/
def Step.Matches (R : σ → τ → Prop) : Step σ → Step τ → Prop
  | .finished s, .finished t => R s t
  | .stuck s why, .stuck t why' => R s t ∧ why = why'
  | .pivoted s, .pivoted t => R s t
  | _, _ => False

theorem alike_iterate {R : σ → τ → Prop} {step : σ → Step σ} {step' : τ → Step τ}
    (hstep : ∀ s t, R s t → (step s).Matches R (step' t)) (limit : Nat) {s : σ} {t : τ}
    (h : R s t) : Alike (SameAnswer R) (iterate step limit s) (iterate step' limit t) := by
  induction limit generalizing s t with
  | zero =>
      have hm := hstep s t h
      unfold iterate
      cases hr : step s <;> cases hr' : step' t <;> rw [hr, hr'] at hm <;>
        simp_all [Step.Matches, Alike, SameAnswer]
  | succ limit ih =>
      have hm := hstep s t h
      unfold iterate
      cases hr : step s <;> cases hr' : step' t <;> rw [hr, hr'] at hm <;>
        simp_all [Step.Matches, Alike, SameAnswer]

end Alike

end Simplex
end Tether
