import Tether.Proofs.Exact.Pivots
import Tether.Proofs.Exact.Runs

/-!
# Calls end with their loops

Under a sound solver every loop of a call starts from what it relies on: a
primal loop from a feasible solver, a dual loop from a settled objective.

A call ends exactly if its loops do.  An addition that needs a probe has a
second loop only if the first one ends and finds the constraint satisfiable, and
a list of calls has the loops of its next member only if the members before it
succeed.
-/

namespace Tether

open Simplex

namespace Solver

variable {s t u start : Solver Rat} {c : Constraint Rat} {call : SolverCall Rat} {loop : Loop}

section Starting

theorem Hosts.lowering {r : Row Rat} {tag : Tag} {w : Solver Rat} (hs : s.Sound)
    (hc : s.hasConstraint c = false) (hd : Drafted s c r tag u) (hw : Hosts u r w)
    (hb : w.books = u.books) : Lowering (w.enlist c tag) (w.enlist c tag) := by
  have hstanding := Drafted.standing_enlist hs hc hd hw hb
  exact ⟨hstanding.layered, hstanding.feasible, .refl _⟩

/-- The loops of an addition start from feasible solvers. -/
theorem Sound.proceeds_adding (hs : s.Sound) (hc : s.hasConstraint c = false)
    (h : s.Adding c loop start) : loop.Proceeds start start := by
  have hd := drafted_createRow hs.ledger hs.optimal.layered c
  cases h with
  | subject hx => exact Hosts.lowering hs hc hd (Drafted.hosts_subject hd hs hx) (books_enter _ _ _)
  | redundant hx hdum hz =>
      exact Hosts.lowering hs hc hd (Drafted.hosts_dummy hd hs hdum hz) (books_enter _ _ _)
  | probing hx hdum =>
      have hhost := Drafted.probed_host hd hx hs
      exact ⟨hhost.layered, hhost.feasible, .refl _⟩
  | @probed hx hdum limit w hw =>
      have hbooks := (ensures_probe_recalls limit (s.createRow c).2.2 (s.createRow c).1 _ hw).2
      rcases Drafted.decides_probe hd hx hs hdum limit _ hw with ⟨-, hhosts⟩ | ⟨hno, -⟩
      · exact Hosts.lowering hs hc hd hhosts hbooks
      · cases hno

/-- Every loop of a call starts from what it relies on. -/
theorem Sound.proceeds (hs : s.Sound) (h : Starts s call loop start) :
    loop.Proceeds start start := by
  have hstanding : ∀ {l : List (Constraint Rat × Tag)} {u : Solver Rat}, u.Standing l →
      Lowering u u := fun h => ⟨h.layered, h.feasible, .refl _⟩
  cases h with
  | add hp hc h => exact hs.proceeds_adding hc h
  | remove hf =>
      exact hstanding (hs.optimal.toStanding.uninstall hs.ledger hs.idle.artificial hf
        (fun _ _ => rfl) rfl).2.2
  | addEdit hv hr h =>
      cases h with
      | add hp hc h => exact hs.proceeds_adding hc h
  | removeEdit hv h =>
      cases h with
      | remove hf =>
          exact hstanding ((hs.standing_ended _).uninstall (hs.ledger_ended _)
            hs.idle.artificial hf (hs.current_ended hv hf) rfl).2.2
  | suggest hv hx =>
      obtain ⟨y, d, -, hshift⟩ := hs.exists_shifted hv _
      exact hs.restoring_shifted hshift

end Starting

section Probes

/-- Under some limit the loop ends. -/
def Loop.Ends (loop : Loop) (start : Solver Rat) : Prop :=
  Simplex.Ends (fun limit => iterate loop.step limit start)

variable {ε : Type} {internal : String → ε} {tag : Tag} {r : Row Rat} {known : Nat}

theorem steady_reoptimize (internal : String → ε) (s : Solver Rat) :
    Steady (fun limit => reoptimize limit internal s) :=
  (steady_iterate (primalStep .primary) s).map _

theorem ends_reoptimize_iff : Simplex.Ends (fun limit => reoptimize limit internal s) ↔
    (Loop.primal .primary).Ends s :=
  ends_map_iff

theorem steady_install (s : Solver Rat) (c : Constraint Rat) (tag : Tag) :
    Steady (fun limit => install limit s c tag) :=
  steady_reoptimize AddError.internal (s.enlist c tag)

theorem ends_install_iff : Simplex.Ends (fun limit => install limit s c tag) ↔
    (Loop.primal .primary).Ends (s.enlist c tag) :=
  ends_reoptimize_iff

theorem steady_probe (s : Solver Rat) (r : Row Rat) : Steady (fun limit => probe limit s r) :=
  (steady_iterate (primalStep .artificial) (host s r)).map _

theorem ends_probe_iff : Simplex.Ends (fun limit => probe limit s r) ↔
    (Loop.primal .artificial).Ends (host s r) :=
  ends_map_iff (o := fun limit => iterate (primalStep .artificial) limit (host s r))

/-- What follows a probe. -/
def afterProbe (limit : Nat) (objective : Row Rat) (known : Nat) (c : Constraint Rat) (tag : Tag) :
    Solver Rat × Except Breakdown Bool → Outcome (Solver Rat) AddError
  | (s, .error why) => .ok (s.keepProbe, .error (.internal why.message))
  | (s, .ok false) => .ok (s.undoProbe objective known, .error .unsatisfiableConstraint)
  | (s, .ok true) => install limit s.keepProbe c tag

theorem installByProbe_eq (limit : Nat) (s : Solver Rat) (known : Nat) (c : Constraint Rat)
    (r : Row Rat) (tag : Tag) : installByProbe limit s known c r tag =
      (probe limit { s with tableau := s.tableau.openJournal } r).bind
        (afterProbe limit s.objective known c tag) := by
  unfold installByProbe
  refine congrArg _ (funext ?_)
  rintro ⟨u, why | success⟩
  · rfl
  · cases success <;> rfl

theorem steady_afterProbe {objective : Row Rat} (p : Solver Rat × Except Breakdown Bool) :
    Steady (fun limit => afterProbe limit objective known c tag p) := by
  rcases p with ⟨u, why | success⟩
  · exact steady_const _
  · cases success with
    | false => exact steady_const _
    | true => exact steady_install u.keepProbe c tag

theorem steady_installByProbe (s : Solver Rat) (known : Nat) (c : Constraint Rat) (r : Row Rat)
    (tag : Tag) : Steady (fun limit => installByProbe limit s known c r tag) := by
  simp only [installByProbe_eq]
  exact (steady_probe _ r).bind steady_afterProbe

/-- An addition by a probe ends if the probe does, and if what follows a probe with
success does. -/
theorem ends_installByProbe_iff :
    Simplex.Ends (fun limit => installByProbe limit s known c r tag) ↔
      (Loop.primal .artificial).Ends (host { s with tableau := s.tableau.openJournal } r) ∧
        ∀ limit u, probe limit { s with tableau := s.tableau.openJournal } r =
          .ok (u, .ok true) → (Loop.primal .primary).Ends (u.keepProbe.enlist c tag) := by
  simp only [installByProbe_eq]
  rw [(steady_probe _ r).ends_bind_iff steady_afterProbe, ends_probe_iff]
  refine and_congr_right (fun _ => ⟨fun h limit u hu => ?_, fun h limit p hp => ?_⟩)
  · exact ends_install_iff.mp (h limit _ hu)
  · rcases p with ⟨u, why | success⟩
    · exact ends_ok _
    · cases success with
      | false => exact ends_ok _
      | true => exact ends_install_iff.mpr (h limit u hp)

end Probes

section Governing

variable {β γ : Type} {o : Nat → Except Halt β} {v : Variable}

/-- A call does not depend on a limit that is large enough, and it ends exactly if its
loops do. -/
structure Governed (s : Solver Rat) (call : SolverCall Rat) (o : Nat → Except Halt β) :
    Prop where
  steady : Steady o
  ends_iff : Simplex.Ends o ↔ ∀ loop start, Starts s call loop start → loop.Ends start

theorem governed_of_none (r : Except Halt β) (hr : r ≠ .error .unfinished)
    (ho : ∀ limit, o limit = r) (hnone : ∀ loop start, ¬ Starts s call loop start) :
    Governed s call o := by
  obtain rfl : o = fun _ => r := funext ho
  exact ⟨steady_const r, iff_of_true ⟨0, hr⟩ (fun loop start h => absurd h (hnone loop start))⟩

theorem governed_of_loop (loop : Loop) (start : Solver Rat) (hs : Steady o)
    (he : Simplex.Ends o ↔ loop.Ends start)
    (hone : ∀ loop' start', Starts s call loop' start' ↔ loop' = loop ∧ start' = start) :
    Governed s call o := by
  refine ⟨hs, he.trans ?_⟩
  simp only [hone]
  constructor
  · rintro h loop' start' ⟨rfl, rfl⟩
    exact h
  · exact fun h => h _ _ ⟨rfl, rfl⟩

theorem Governed.map {call' : SolverCall Rat} (h : Governed s call o) (f : β → γ)
    (hsame : ∀ loop start, Starts u call' loop start ↔ Starts s call loop start) :
    Governed u call' (fun limit => (o limit).map f) := by
  refine ⟨h.steady.map f, ends_map_iff.trans ?_⟩
  simp only [hsame]
  exact h.ends_iff

theorem starts_add_iff (hp : c.hasProxies = false) (hc : s.hasConstraint c = false) :
    Starts s (.add c) loop start ↔ s.Adding c loop start :=
  ⟨fun h => by cases h; assumption, .add hp hc⟩

/-- An addition that is installed at once has one loop. -/
theorem governed_of_install {w : Solver Rat} {tag : Tag} (hp : c.hasProxies = false)
    (hc : s.hasConstraint c = false) (ho : ∀ limit, s.add limit c = install limit w c tag)
    (hw : s.Adding c (.primal .primary) (w.enlist c tag))
    (hone : ∀ loop start, s.Adding c loop start →
      loop = .primal .primary ∧ start = w.enlist c tag) :
    Governed s (.add c) (fun limit => s.add limit c) := by
  simp only [ho]
  refine governed_of_loop _ _ (steady_install w c tag) ends_install_iff (fun loop start => ?_)
  rw [starts_add_iff hp hc]
  constructor
  · exact hone loop start
  · rintro ⟨rfl, rfl⟩
    exact hw

/-- An addition by a probe has the loop of the probe and the one after it. -/
theorem governed_add_of_probing (hp : c.hasProxies = false) (hc : s.hasConstraint c = false)
    (hx : subject? (s.createRow c).1 (s.createRow c).2.1 = none)
    (hd : (s.createRow c).1.allDummies = false) :
    Governed s (.add c) (fun limit => s.add limit c) := by
  simp only [add_of_probing hp hc hx hd]
  refine ⟨steady_installByProbe _ _ _ _ _, ends_installByProbe_iff.trans ?_⟩
  simp only [starts_add_iff hp hc]
  constructor
  · rintro ⟨hprobe, hrest⟩ loop start h
    cases h with
    | subject hx' => simp [hx] at hx'
    | redundant hx' hd' => simp [hd] at hd'
    | probing => exact hprobe
    | probed _ _ hu => exact hrest _ _ hu
  · exact fun h => ⟨h _ _ (.probing hx hd), fun limit u hu => h _ _ (.probed hx hd hu)⟩

theorem governed_add (s : Solver Rat) (c : Constraint Rat) :
    Governed s (.add c) (fun limit => s.add limit c) := by
  cases hp : c.hasProxies with
  | true =>
      refine governed_of_none _ (by simp) (fun limit => add_of_proxies hp) ?_
      rintro loop start ⟨hp', -⟩
      simp [hp] at hp'
  | false =>
  cases hc : s.hasConstraint c with
  | true =>
      refine governed_of_none _ (by simp) (fun limit => add_of_duplicate hp hc) ?_
      rintro loop start ⟨-, hc', -⟩
      simp [hc] at hc'
  | false =>
  cases hx : subject? (s.createRow c).1 (s.createRow c).2.1 with
  | some x =>
      refine governed_of_install hp hc (fun limit => add_of_subject hp hc hx) (.subject hx)
        (fun loop start h => ?_)
      cases h <;> simp_all
  | none =>
  cases hd : (s.createRow c).1.allDummies with
  | false => exact governed_add_of_probing hp hc hx hd
  | true =>
  cases hz : Scalar.nearZero (s.createRow c).1.constant with
  | true =>
      refine governed_of_install hp hc (fun limit => add_of_redundant hp hc hx hd hz)
        (.redundant hx hd hz) (fun loop start h => ?_)
      cases h <;> simp_all
  | false =>
      refine governed_of_none _ (by simp) (fun limit => add_of_contradictory hp hc hx hd hz)
        (fun loop start h => ?_)
      rw [starts_add_iff hp hc] at h
      cases h <;> simp_all

theorem governed_remove (s : Solver Rat) (c : Constraint Rat) :
    Governed s (.remove c) (fun limit => s.remove limit c) := by
  cases hf : s.constraints.find? c with
  | none =>
      refine governed_of_none (.ok (s, .error .unknownConstraint)) (by simp)
        (fun limit => ?_) (fun loop start h => ?_)
      · unfold Solver.remove
        rw [hf]
      · cases h with
        | remove hf' => simp [hf] at hf'
  | some e =>
      simp only [Solver.remove, hf]
      refine governed_of_loop _ _ (steady_reoptimize RemoveError.internal _) ends_reoptimize_iff
        (fun loop start => ⟨fun h => ?_, ?_⟩)
      · cases h with
        | remove hf' =>
            rw [hf] at hf'
            cases hf'
            exact ⟨rfl, rfl⟩
      · rintro ⟨rfl, rfl⟩
        exact .remove hf

theorem governed_addEdit (s : Solver Rat) (v : Variable) (strength : Strength Rat) :
    Governed s (.addEdit v strength) (fun limit => s.addEdit limit v strength) := by
  cases hv : s.hasEditVariable v with
  | true =>
      refine governed_of_none (.ok (s, .error .duplicateEditVariable)) (by simp)
        (fun limit => ?_) (fun loop start h => ?_)
      · rw [Solver.addEdit, if_pos hv]
      · cases h with
        | addEdit hv' => simp [hv] at hv'
  | false =>
  cases hr : (Strength.clip strength.value : Strength Rat).isRequired with
  | true =>
      refine governed_of_none (.ok (s, .error .badRequiredStrength)) (by simp)
        (fun limit => ?_) (fun loop start h => ?_)
      · simp only [Solver.addEdit, hv, hr, Bool.false_eq_true, if_false, if_true]
      · cases h with
        | addEdit _ hr' => simp [hr] at hr'
  | false =>
      simp only [Solver.addEdit, hv, hr, Bool.false_eq_true, if_false]
      refine (governed_add s _).map _ (fun loop start => ⟨fun h => ?_, fun h => .addEdit hv hr h⟩)
      cases h with
      | addEdit _ _ h => exact h

theorem governed_removeEdit (s : Solver Rat) (v : Variable) :
    Governed s (.removeEdit v) (fun limit => s.removeEdit limit v) := by
  cases hv : s.edits.get? v with
  | none =>
      refine governed_of_none (.ok (s, .error .unknownEditVariable)) (by simp)
        (fun limit => ?_) (fun loop start h => ?_)
      · simp only [Solver.removeEdit, hv]
      · cases h with
        | removeEdit hv' => simp [hv] at hv'
  | some edit =>
      simp only [Solver.removeEdit, hv]
      refine (governed_remove { s with edits := s.edits.erase v } edit.constraint).map _
        (fun loop start => ⟨fun h => ?_, fun h => .removeEdit hv h⟩)
      cases h with
      | removeEdit hv' h =>
          rw [hv] at hv'
          cases hv'
          exact h

theorem governed_suggest (s : Solver Rat) (v : Variable) (x : Rat) :
    Governed s (.suggest v x) (fun limit => s.suggest limit v x) := by
  cases hv : s.edits.get? v with
  | none =>
      refine governed_of_none (.ok (s, .error .unknownEditVariable)) (by simp)
        (fun limit => ?_) (fun loop start h => ?_)
      · simp only [Solver.suggest, hv]
      · cases h with
        | suggest hv' => simp [hv] at hv'
  | some edit =>
  cases hz : Scalar.isZero (x - edit.constant) with
  | true =>
      refine governed_of_none (.ok (s.retarget v x, .ok ())) (by simp)
        (fun limit => ?_) (fun loop start h => ?_)
      · simp only [Solver.suggest, hv, hz, if_true]
        rfl
      · cases h with
        | suggest hv' hz' =>
            rw [hv] at hv'
            cases hv'
            simp [hz] at hz'
  | false =>
      simp only [Solver.suggest, hv, hz, Bool.false_eq_true, if_false]
      refine governed_of_loop .dual _ ((steady_iterate dualStep _).map _) ends_map_iff
        (fun loop start => ⟨fun h => ?_, ?_⟩)
      · cases h with
        | suggest hv' hz' =>
            rw [hv] at hv'
            cases hv'
            exact ⟨rfl, rfl⟩
      · rintro ⟨rfl, rfl⟩
        exact .suggest hv hz

end Governing

section Lists

variable {δ ε : Type} {first : Solver Rat → δ → Loop → Solver Rat → Prop}
  {k : Nat → Solver Rat → δ → Outcome (Solver Rat) ε} {x : δ} {l rest : List δ}

/-- What follows the first member of a list of calls. -/
def afterFirst (k : Solver Rat → δ → Outcome (Solver Rat) ε) (rest : List δ) :
    Solver Rat × Except ε Unit → Outcome (Solver Rat) ε
  | (s, .error e) => .ok (s, .error e)
  | (s, .ok ()) => forEach k s rest

theorem forEach_cons (k : Solver Rat → δ → Outcome (Solver Rat) ε) (s : Solver Rat) (x : δ)
    (rest : List δ) : forEach k s (x :: rest) = (k s x).bind (afterFirst k rest) := by
  rw [forEach]
  refine congrArg _ (funext ?_)
  rintro ⟨u, e | u'⟩ <;> rfl

theorem steady_forEach (hk : ∀ s x, Steady (fun limit => k limit s x)) (s : Solver Rat)
    (l : List δ) : Steady (fun limit => forEach (k limit) s l) := by
  induction l generalizing s with
  | nil => exact steady_const _
  | cons x rest ih =>
      simp only [forEach_cons]
      refine (hk s x).bind (fun p => ?_)
      rcases p with ⟨u, e | u'⟩
      · exact steady_const _
      · exact ih u

/-- A list of calls ends if its first member does, and if what is left does where the
first member succeeds. -/
theorem ends_forEach_cons_iff (hk : ∀ s x, Steady (fun limit => k limit s x)) :
    Simplex.Ends (fun limit => forEach (k limit) s (x :: rest)) ↔
      Simplex.Ends (fun limit => k limit s x) ∧ ∀ limit u, k limit s x = .ok (u, .ok ()) →
        Simplex.Ends (fun limit => forEach (k limit) u rest) := by
  have hrest : ∀ p, Steady (fun limit => afterFirst (k limit) rest p) := by
    rintro ⟨u, e | u'⟩
    · exact steady_const _
    · exact steady_forEach hk u rest
  simp only [forEach_cons]
  rw [(hk s x).ends_bind_iff hrest]
  refine and_congr_right (fun _ => ⟨fun h limit u hu => h limit _ hu, fun h limit p hp => ?_⟩)
  rcases p with ⟨u, e | u'⟩
  · exact ends_ok _
  · exact h limit u hp

theorem ends_forEach_iff (hk : ∀ s x, Steady (fun limit => k limit s x))
    (hfirst : ∀ s x, Simplex.Ends (fun limit => k limit s x) ↔
      ∀ loop start, first s x loop start → loop.Ends start) :
    Simplex.Ends (fun limit => forEach (k limit) s l) ↔
      ∀ loop start, Within first k s l loop start → loop.Ends start := by
  induction l generalizing s with
  | nil => exact iff_of_true (ends_ok _) (fun loop start h => by cases h)
  | cons x rest ih =>
      rw [ends_forEach_cons_iff hk, hfirst]
      constructor
      · rintro ⟨hx, hrest⟩ loop start h
        cases h with
        | head h => exact hx loop start h
        | tail hu h => exact ih.mp (hrest _ _ hu) loop start h
      · intro h
        exact ⟨fun loop start hx => h loop start (.head hx),
          fun limit u hu => ih.mpr (fun loop start hr => h loop start (.tail hu hr))⟩

end Lists

section Undertaking

/-- Every loop of a call is one of a single call under a sound solver. -/
theorem Sound.exists_starts (hs : s.Sound) (hw : call.Weighted)
    (h : Undertakes s call loop start) : ∃ u call', u.Sound ∧ Starts u call' loop start := by
  refine h.exists_starts hs ?_ (fun _ hs c limit u hu => ((hs.remove limit c) _ hu).2)
  rintro cs rfl s hs c hc limit u hu
  exact ((hs.add (hw c hc) limit) _ hu).2

/-- Under a sound solver every loop starts from what it relies on. -/
theorem Sound.proceeds_of_undertakes (hs : s.Sound) (hw : call.Weighted)
    (h : Undertakes s call loop start) : loop.Proceeds start start := by
  obtain ⟨u, call', hu, hstarts⟩ := hs.exists_starts hw h
  exact hu.proceeds hstarts

/-- A call that is not a list of calls has its own loops only. -/
theorem Undertakes.starts (h : Undertakes s call loop start) (hadd : ∀ cs, call ≠ .addAll cs)
    (hremove : ∀ cs, call ≠ .removeAll cs) : Starts s call loop start := by
  cases h with
  | single h => exact h
  | addAll h => exact absurd rfl (hadd _)
  | removeAll h => exact absurd rfl (hremove _)

theorem Governed.ends_iff_undertakes {β : Type} {o : Nat → Except Halt β}
    (h : Governed s call o) (hadd : ∀ cs, call ≠ .addAll cs)
    (hremove : ∀ cs, call ≠ .removeAll cs) :
    Simplex.Ends o ↔ ∀ loop start, Undertakes s call loop start → loop.Ends start := by
  rw [h.ends_iff]
  exact ⟨fun hall loop start hs => hall loop start (hs.starts hadd hremove),
    fun hall loop start hs => hall loop start (.single hs)⟩

/-- A call ends exactly if every loop that it undertakes does. -/
theorem ends_perform_iff : Simplex.Ends (fun limit => s.perform limit call) ↔
    ∀ loop start, Undertakes s call loop start → loop.Ends start := by
  -- what is answered at once has no loops
  have hquery : ∀ {p : Solver Rat × SolverAnswer Rat} {call : SolverCall Rat},
      (∀ cs, call ≠ .addAll cs) → (∀ cs, call ≠ .removeAll cs) →
      (∀ loop start, ¬ Starts s call loop start) →
      (Simplex.Ends (fun _ => (.ok p : Except Halt (Solver Rat × SolverAnswer Rat))) ↔
        ∀ loop start, Undertakes s call loop start → loop.Ends start) :=
    fun hadd hremove hno =>
      (governed_of_none _ (by simp) (fun _ => rfl) hno).ends_iff_undertakes hadd hremove
  cases call with
  | add c =>
      exact ends_map_iff.trans ((governed_add s c).ends_iff_undertakes (by simp) (by simp))
  | remove c =>
      exact ends_map_iff.trans ((governed_remove s c).ends_iff_undertakes (by simp) (by simp))
  | addEdit v strength =>
      exact ends_map_iff.trans
        ((governed_addEdit s v strength).ends_iff_undertakes (by simp) (by simp))
  | removeEdit v =>
      exact ends_map_iff.trans ((governed_removeEdit s v).ends_iff_undertakes (by simp) (by simp))
  | suggest v x =>
      exact ends_map_iff.trans ((governed_suggest s v x).ends_iff_undertakes (by simp) (by simp))
  | addAll cs =>
      refine ends_map_iff.trans ((ends_forEach_iff (fun s c => (governed_add s c).steady)
        (fun s c => (governed_add s c).ends_iff)).trans ?_)
      refine forall₂_congr (fun loop start => ⟨fun h hs => ?_, fun h hs => h (.addAll hs)⟩)
      cases hs with
      | single hs => cases hs
      | addAll hs => exact h hs
  | removeAll cs =>
      refine ends_map_iff.trans ((ends_forEach_iff (fun s c => (governed_remove s c).steady)
        (fun s c => (governed_remove s c).ends_iff)).trans ?_)
      refine forall₂_congr (fun loop start => ⟨fun h hs => ?_, fun h hs => h (.removeAll hs)⟩)
      cases hs with
      | single hs => cases hs
      | removeAll hs => exact h hs
  | hasConstraint | hasEditVariable | hasVariable | value | flush | constraints | settings
  | reset => exact hquery (by simp) (by simp) (by rintro loop start ⟨⟩)

end Undertaking

end Solver
end Tether
