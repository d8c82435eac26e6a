import Tether.Proofs.Outcome
import Tether.Touch.Listener

/-!
# Computations with a state, and what listeners hear

A tracker works in any monad.  What is proved of it is proved for monads whose
computations can be run from a state, and then answer or halt.

* `Meets` says what holds of an answer and what of a halt.  There is one rule for
  every way in which computations are put together: returning, halting, sequencing,
  and going through a list.
* `Hears` says how the state of a listener changes while it is told something.  The
  same description of a tracker serves every listener: one that writes everything
  down, one that passes everything on, or any other.
-/

namespace Tether

open Simplex

variable {α β γ δ σ τ : Type}

section Meeting

/-- If the computation answers, then the answer has one property, and if it halts, then
the reason has another. -/
def Meets (o : Except Halt β) (P : Halt → Prop) (Q : β → Prop) : Prop :=
  match o with
  | .ok b => Q b
  | .error halt => P halt

variable {o : Except Halt β} {P P' : Halt → Prop} {Q Q' : β → Prop}

theorem Meets.mono (h : Meets o P Q) (hP : ∀ halt, P halt → P' halt) (hQ : ∀ b, Q b → Q' b) :
    Meets o P' Q' := by
  cases o with
  | error halt => exact hP halt h
  | ok b => exact hQ b h

theorem Meets.map {f : β → γ} {Q : γ → Prop} (h : Meets o P (fun b => Q (f b))) :
    Meets (o.map f) P Q := by
  cases o with
  | error halt => exact h
  | ok b => exact h

theorem Meets.bind {f : β → Except Halt γ} {Q : γ → Prop}
    (h : Meets o P (fun b => Meets (f b) P Q)) : Meets (o.bind f) P Q := by
  cases o with
  | error halt => exact h
  | ok b => exact h

theorem Meets.of_ok {b : β} (h : Meets o P Q) (ho : o = .ok b) : Q b := by
  subst ho
  exact h

theorem Meets.of_error {halt : Halt} (h : Meets o P Q) (ho : o = .error halt) : P halt := by
  subst ho
  exact h

end Meeting

section Running

/-- Monads whose computations start from a state, and answer or halt. -/
class Stateful (m : Type → Type) [Monad m] [MonadExceptOf Halt m] (τ : outParam Type) where
  /-- Runs a computation from a state. -/
  exec {β : Type} : m β → τ → Except Halt (β × τ)
  exec_pure {β : Type} (b : β) (s : τ) : exec (pure b) s = .ok (b, s)
  exec_bind {β γ : Type} (x : m β) (f : β → m γ) (s : τ) :
    exec (x >>= f) s = (exec x s).bind (fun p => exec (f p.1) p.2)
  exec_throw {β : Type} (halt : Halt) (s : τ) : exec (throw halt : m β) s = .error halt

open Stateful

instance : Stateful (StateT σ (Except Halt)) σ where
  exec x s := x s
  exec_pure _ _ := rfl
  exec_bind _ _ _ := rfl
  exec_throw _ _ := rfl

/-- A further state stands beside the one that is there. -/
instance {m : Type → Type} [Monad m] [MonadExceptOf Halt m] [Stateful m τ] :
    Stateful (StateT σ m) (σ × τ) where
  exec x s := (exec (x s.1) s.2).map (fun p => (p.1.1, (p.1.2, p.2)))
  exec_pure b s := by
    show (exec (pure (b, s.1) : m _) s.2).map _ = _
    rw [exec_pure]
    rfl
  exec_bind x f s := by
    show (exec ((x s.1) >>= fun p => f p.1 p.2) s.2).map _ = _
    rw [exec_bind]
    cases exec (x s.1) s.2 with
    | error halt => rfl
    | ok p => rfl
  exec_throw halt s := by
    show (exec ((throw halt : m _) >>= fun b => pure (b, s.1)) s.2).map _ = _
    rw [exec_bind, exec_throw]
    rfl

variable {m : Type → Type} [Monad m] [MonadExceptOf Halt m] [Stateful m τ]
variable {P : Halt → Prop} {s : τ}

theorem meets_pure {b : β} {Q : β × τ → Prop} (h : Q (b, s)) :
    Meets (exec (pure b : m β) s) P Q := by
  rw [exec_pure]
  exact h

theorem meets_throw {halt : Halt} {Q : β × τ → Prop} (h : P halt) :
    Meets (exec (throw halt : m β) s) P Q := by
  rw [exec_throw]
  exact h

theorem meets_bind {x : m β} {f : β → m γ} {Q : γ × τ → Prop}
    (h : Meets (exec x s) P (fun p => Meets (exec (f p.1) p.2) P Q)) :
    Meets (exec (x >>= f) s) P Q := by
  rw [exec_bind]
  exact h.bind

/-- The last step of a fold starts where the steps before it came to. -/
theorem exec_foldlM_append (f : β → γ → m β) (l : List γ) (x : γ) (b : β) (s : τ) :
    exec ((l ++ [x]).foldlM f b) s =
      (exec (l.foldlM f b) s).bind (fun p => exec (f p.1 x) p.2) := by
  induction l generalizing b s with
  | nil =>
      rw [List.nil_append, List.foldlM_cons, List.foldlM_nil, exec_bind, exec_pure]
      cases hx : exec (f b x) s with
      | error halt => exact hx.symm
      | ok p => exact (exec_pure p.1 p.2).trans hx.symm
  | cons y rest ih =>
      rw [List.cons_append, List.foldlM_cons, List.foldlM_cons, exec_bind, exec_bind]
      cases exec (f b y) s with
      | error halt => rfl
      | ok p => exact ih p.1 p.2

/-- The answers of a fold: what holds of the elements before each place carries over
the element at the place. -/
theorem meets_foldlM {f : β → γ → m β} {I : List γ → β × τ → Prop} (l : List γ) {b : β}
    (h : I [] (b, s)) (hstep : ∀ before x after b s, l = before ++ x :: after →
      I before (b, s) → Meets (exec (f b x) s) P (I (before ++ [x]))) :
    Meets (exec (l.foldlM f b) s) P (I l) := by
  suffices hrest : ∀ rest before b s, l = before ++ rest → I before (b, s) →
      Meets (exec (rest.foldlM f b) s) P (I l) from hrest l [] b s rfl h
  intro rest
  induction rest with
  | nil =>
      intro before b s hl hb
      rw [List.append_nil] at hl
      exact hl ▸ meets_pure hb
  | cons x rest ih =>
      intro before b s hl hb
      rw [List.foldlM_cons]
      refine meets_bind ((hstep before x rest b s hl hb).mono (fun _ => id) ?_)
      intro p hp
      exact ih (before ++ [x]) p.1 p.2 (by simp [hl]) hp

/-- What a loop through a list leads to. -/
theorem meets_forM {f : γ → m Unit} {I : List γ → τ → Prop} (l : List γ) (h : I [] s)
    (hstep : ∀ before x after s, l = before ++ x :: after → I before s →
      Meets (exec (f x) s) P (fun p => I (before ++ [x]) p.2)) :
    Meets (exec (l.forM f) s) P (fun p => I l p.2) := by
  suffices hrest : ∀ rest before s, l = before ++ rest → I before s →
      Meets (exec (rest.forM f) s) P (fun p => I l p.2) from hrest l [] s rfl h
  intro rest
  induction rest with
  | nil =>
      intro before s hl hb
      rw [List.append_nil] at hl
      exact hl ▸ meets_pure hb
  | cons x rest ih =>
      intro before s hl hb
      refine meets_bind ((hstep before x rest s hl hb).mono (fun _ => id) ?_)
      intro p hp
      exact ih (before ++ [x]) p.2 (by simp [hl]) hp

/-- The answers to the elements of a list. -/
theorem meets_mapM {f : γ → m δ} {I : List γ → List δ × τ → Prop} (l : List γ)
    (h : I [] ([], s)) (hstep : ∀ before x after done s, l = before ++ x :: after →
      I before (done, s) →
        Meets (exec (f x) s) P (fun p => I (before ++ [x]) (done ++ [p.1], p.2))) :
    Meets (exec (l.mapM f) s) P (I l) := by
  suffices hrest : ∀ rest before done s, l = before ++ rest → I before (done, s) →
      Meets (exec (List.mapM.loop f rest done.reverse) s) P (I l) from
    hrest l [] [] s rfl h
  intro rest
  induction rest with
  | nil =>
      intro before done s hl hb
      rw [List.append_nil] at hl
      unfold List.mapM.loop
      rw [List.reverse_reverse]
      exact hl ▸ meets_pure hb
  | cons x rest ih =>
      intro before done s hl hb
      unfold List.mapM.loop
      refine meets_bind ((hstep before x rest done s hl hb).mono (fun _ => id) ?_)
      intro p hp
      have := ih (before ++ [x]) (done ++ [p.1]) p.2 (by simp [hl]) hp
      rwa [List.reverse_append] at this

end Running

section Hearing

open Stateful

variable {m : Type → Type} [Monad m] [MonadExceptOf Halt m] [Stateful m τ]

namespace Listener

/-- How the state of a listener may change while it is told something, and why the
listener may halt. -/
structure Hears (listener : Listener m α) (T : τ → List (TouchEvent α) → τ → Prop)
    (P : Halt → Prop) : Prop where
  nothing : ∀ s, T s [] s
  more : ∀ {s u w es es'}, T s es u → T u es' w → T s (es ++ es') w
  added : ∀ cs s, Meets (exec (listener.added cs) s) P (fun p => T s [.added cs] p.2)
  removed : ∀ cs s, Meets (exec (listener.removed cs) s) P (fun p => T s [.removed cs] p.2)
  edited : ∀ v change s,
    Meets (exec (listener.edited v change) s) P (fun p => T s [.edited v change] p.2)
  sample : ∀ v s, Meets (exec (listener.sample v) s) P (fun p => T s [.sampled v p.1] p.2)

theorem Hears.weaken {listener : Listener m α} {T : τ → List (TouchEvent α) → τ → Prop}
    {P P' : Halt → Prop} (h : listener.Hears T P) (hP : ∀ halt, P halt → P' halt) :
    listener.Hears T P' where
  nothing := h.nothing
  more := h.more
  added := fun cs s => (h.added cs s).mono hP (fun _ => id)
  removed := fun cs s => (h.removed cs s).mono hP (fun _ => id)
  edited := fun v change s => (h.edited v change s).mono hP (fun _ => id)
  sample := fun v s => (h.sample v s).mono hP (fun _ => id)

/-- Something makes a listener halt. -/
def Halts (listener : Listener m α) (halt : Halt) : Prop :=
  ∃ s : τ, (∃ cs, exec (listener.added cs) s = .error halt) ∨
    (∃ cs, exec (listener.removed cs) s = .error halt) ∨
    (∃ v change, exec (listener.edited v change) s = .error halt) ∨
    ∃ v, exec (listener.sample v) s = .error halt

theorem meets_of_forall {o : Except Halt β} {P : Halt → Prop} {Q : β → Prop}
    (hP : ∀ halt, o = .error halt → P halt) (hQ : ∀ b, o = .ok b → Q b) : Meets o P Q := by
  cases o with
  | error halt => exact hP halt rfl
  | ok b => exact hQ b rfl

/-- Of an arbitrary listener nothing is known but that it may halt. -/
theorem hears_anything (listener : Listener m α) :
    listener.Hears (fun _ _ _ => True) listener.Halts where
  nothing := fun _ => trivial
  more := fun _ _ => trivial
  added := fun cs s =>
    meets_of_forall (fun _ h => ⟨s, .inl ⟨cs, h⟩⟩) (fun _ _ => trivial)
  removed := fun cs s =>
    meets_of_forall (fun _ h => ⟨s, .inr (.inl ⟨cs, h⟩)⟩) (fun _ _ => trivial)
  edited := fun v change s =>
    meets_of_forall (fun _ h => ⟨s, .inr (.inr (.inl ⟨v, change, h⟩))⟩) (fun _ _ => trivial)
  sample := fun v s =>
    meets_of_forall (fun _ h => ⟨s, .inr (.inr (.inr ⟨v, h⟩))⟩) (fun _ _ => trivial)

theorem meets_record (e : TouchEvent α) (l : List (TouchEvent α)) (s : τ) :
    Meets (exec (record e : StateT (List (TouchEvent α)) m Unit) (l, s)) (fun _ => True)
      (fun p => p.2.1 = l ++ [e]) := by
  show Meets ((exec (pure ((), l ++ [e]) : m _) s).map _) _ _
  rw [exec_pure]
  rfl

/-- What a listener does by itself leaves the log as it is. -/
theorem meets_monadLift (x : m β) (l : List (TouchEvent α)) (s : τ) :
    Meets (exec (liftM x : StateT (List (TouchEvent α)) m β) (l, s)) (fun _ => True)
      (fun p => p.2.1 = l) := by
  show Meets ((exec (x >>= fun b => pure (b, l)) s).map _) _ _
  refine Meets.map (meets_bind (meets_of_forall (fun _ _ => trivial) (fun p _ => ?_)))
  exact meets_pure rfl

/-- A log grows by what the listener is told. -/
theorem hears_logged (listener : Listener m α) :
    listener.logged.Hears (fun s es u => u.1 = s.1 ++ es) (fun _ => True) where
  nothing := fun s => (List.append_nil s.1).symm
  more := fun h h' => by rw [h', h, List.append_assoc]
  added := fun cs s => by
    refine meets_bind ((meets_monadLift (listener.added cs) s.1 s.2).mono (fun _ => id) ?_)
    intro p hp
    exact hp ▸ meets_record _ p.2.1 p.2.2
  removed := fun cs s => by
    refine meets_bind ((meets_monadLift (listener.removed cs) s.1 s.2).mono (fun _ => id) ?_)
    intro p hp
    exact hp ▸ meets_record _ p.2.1 p.2.2
  edited := fun v change s => by
    refine meets_bind
      ((meets_monadLift (listener.edited v change) s.1 s.2).mono (fun _ => id) ?_)
    intro p hp
    exact hp ▸ meets_record _ p.2.1 p.2.2
  sample := fun v s => by
    refine meets_bind ((meets_monadLift (listener.sample v) s.1 s.2).mono (fun _ => id) ?_)
    intro p hp
    refine meets_bind ((meets_record (.sampled v p.1) p.2.1 p.2.2).mono (fun _ => id) ?_)
    intro q hq
    exact meets_pure (hq.trans (by rw [hp]))

end Listener

end Hearing

end Tether
