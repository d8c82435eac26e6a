import Tether.Proofs.Exact.Staying
import Tether.Proofs.Touch.Forms
import Tether.Touch.Relay

/-!
# Applying a drag moves nothing

When a proxy constraint is applied, its constant terms are read from the solver that the
concrete form is added to.  The form therefore evaluates at the current values to what the
constraint does, each proxy standing for its touch.

A drag asks for how far things have moved since it was applied: its constant terms make up
for the others at the current values.  Its concrete form is exactly met when it is added,
and so the solver keeps every value.
-/

namespace Tether

open Simplex Stateful

section Reading

variable {m : Type → Type} [Monad m] [MonadExceptOf Halt m] {τ : Type} [Stateful m τ]
variable {listener : Listener m Rat} {P : Halt → Prop} {I : τ → Prop} {ν : Variable → Rat}
variable {t : Tracker Rat} {s : τ}

theorem Expression.sumTerms_concat (ν : Variable → Rat) (l : List (Term Rat)) (x : Term Rat) :
    sumTerms ν (l ++ [x]) = sumTerms ν l + x.coefficient * ν x.unknown := by
  induction l with
  | nil => exact add_comm _ _
  | cons y rest ih => rw [List.cons_append, sumTerms, sumTerms, ih, add_assoc]

/-- A listener that answers with given values as long as its state has a property, and
keeps the property. -/
def Listener.Reads (listener : Listener m Rat) (P : Halt → Prop) (I : τ → Prop)
    (ν : Variable → Rat) : Prop :=
  ∀ v s, I s → Meets (exec (listener.sample v) s) P (fun p => I p.2 ∧ p.1 = ν v)

variable (hreads : listener.Reads P I ν) (hs : I s)
include hreads hs

/-- A term that is added to a concrete form adds its value. -/
theorem meets_add_eval {g : Grounded Rat} {x : Term Rat}
    (hx : ∀ n, x.unknown.target.proxyIndex? = some n → n < t.touches.size) :
    Meets (exec (g.add (fun v => pure (t.replacement v)) listener.sample x) s) P (fun p =>
      I p.2 ∧ p.1.expression.eval ν =
        g.expression.eval ν + x.coefficient * ν (t.replacement x.unknown)) := by
  unfold Grounded.add
  refine meets_bind (meets_concrete hx (fun targets => ?_))
  dsimp only
  split
  · refine meets_bind ((hreads _ s hs).mono (fun _ => id) ?_)
    rintro p ⟨hp, hvalue⟩
    refine meets_pure ⟨hp, ?_⟩
    rw [hvalue]
    exact (add_assoc _ _ _).symm
  · refine meets_pure ⟨hs, ?_⟩
    show Expression.sumTerms ν (g.expression.terms ++ [_]) + g.expression.constant = _
    rw [Expression.sumTerms_concat]
    exact add_right_comm _ _ _

/-- A concrete form evaluates to what the constraint does, where each variable has the
value of its replacement. -/
theorem meets_concreteForm_eval {c : Constraint Rat} (h : t.fits c = true) :
    Meets (exec (t.concreteForm listener c) s) P (fun p => I p.2 ∧
      p.1.strength = c.strength ∧
        p.1.expression.eval ν = c.expression.eval (fun v => ν (t.replacement v))) := by
  have hplaces := Tracker.fits_iff.mp h
  unfold Tracker.concreteForm Constraint.ground
  refine meets_bind ?_
  refine (meets_foldlM (I := fun before p => I p.2 ∧ p.1.expression.eval ν =
    Expression.sumTerms (fun v => ν (t.replacement v)) before + c.expression.constant)
      c.expression.terms ⟨hs, rfl⟩ ?_).mono (fun _ => id) ?_
  · rintro before x after g u hterms ⟨hu, heval⟩
    have hx : ∀ n, x.unknown.target.proxyIndex? = some n → n < t.touches.size := by
      intro n hn
      have := Constraint.mem_places (by simp [hterms] : x ∈ c.expression.terms) hn
      rwa [hplaces, Finset.mem_range] at this
    refine (meets_add_eval hreads hu hx).mono (fun _ => id) ?_
    rintro p ⟨hp, hadded⟩
    refine ⟨hp, ?_⟩
    rw [hadded, heval, Expression.sumTerms_concat]
    exact add_right_comm _ _ _
  · rintro p ⟨hp, heval⟩
    exact meets_pure ⟨hp, rfl, heval⟩

end Reading

section Applying

variable {t t' : Tracker Rat} {r r' : Relay Rat} {limit : Nat} {fallback : Variable → Rat}

/-- The relay reads the values of its solver, if the fallback is zero where that knows
none. -/
theorem Relay.reads_listener (hfallback : ∀ v, r.solver.hasVariable v = false → fallback v = 0) :
    (Relay.listener limit fallback).Reads (fun _ => True) (fun r' => r'.solver = r.solver)
      r.solver.value := by
  intro v r' hr'
  show Meets (Relay.sample fallback v r') _ _
  unfold Relay.sample
  cases hv : r'.solver.value? v with
  | some x =>
      refine ⟨hr', ?_⟩
      rw [← hr', Solver.value, hv]
      rfl
  | none =>
      have hunknown : r.solver.hasVariable v = false := by
        rw [← hr', ← Solver.isSome_value?, hv]
        rfl
      refine ⟨hr', ?_⟩
      rw [Solver.value_of_not_hasVariable hunknown]
      exact hfallback v hunknown

/-- Adding constraints that are met one after another moves nothing. -/
theorem Relay.meets_added_met {ds : List (Constraint Rat)} (hs : r.solver.Sound)
    (hds : ∀ d ∈ ds, 0 ≤ d.strength.value ∧ d.expression.eval r.solver.value = 0) :
    Meets (exec ((Relay.listener limit fallback).added ds) r) (fun _ => True)
      (fun p => Solver.Stays r.solver p.2.solver) := by
  refine (meets_forM (I := fun _ r' => r'.solver.Sound ∧ Solver.Stays r.solver r'.solver) ds
    ⟨hs, .refl _⟩ ?_).mono (fun _ => id) (fun p hp => hp.2)
  rintro before d after r' rfl ⟨hs', hstays⟩
  obtain ⟨hpos, hmet⟩ := hds d (by simp)
  rw [← hstays.value_eq] at hmet
  refine Meets.map (Listener.meets_of_forall (fun _ _ => trivial) ?_)
  rintro ⟨u, answer⟩ hadd
  obtain ⟨hsound, hadded, -⟩ := hs'.stays_add_again hpos hmet limit _ hadd
  cases answer with
  | ok _ => exact ⟨hsound, hstays.trans hadded⟩
  | error _ => exact ⟨hsound, hstays.trans hadded⟩

/-- Applying constraints that are met at the current values moves nothing. -/
theorem Tracker.stays_apply (hs : r.solver.Sound)
    (hfallback : ∀ v, r.solver.hasVariable v = false → fallback v = 0)
    (hmet : ∀ c ∈ t.waiting, 0 ≤ c.strength.value ∧
      c.expression.eval (fun v => r.solver.value (t.replacement v)) = 0) :
    Meets (exec (t.apply (Relay.listener limit fallback)) r) (fun _ => True)
      (fun p => Solver.Stays r.solver p.2.solver) := by
  unfold Tracker.apply
  refine meets_bind ((meets_mapM (I := fun _ p => p.2.solver = r.solver ∧
    ∀ e ∈ p.1, 0 ≤ e.2.strength.value ∧ e.2.expression.eval r.solver.value = 0) t.waiting
      ⟨rfl, by simp⟩ ?_).mono (fun _ => id) ?_)
  · rintro before c after made r' hwaiting ⟨hr', hmade⟩
    have hc : c ∈ t.waiting := by simp [hwaiting]
    have hfits : t.fits c = true := (Bool.and_eq_true_iff.mp (List.mem_filter.mp hc).2).2
    obtain ⟨hpos, hzero⟩ := hmet c hc
    refine meets_bind
      ((meets_concreteForm_eval (Relay.reads_listener hfallback) hr' hfits).mono (fun _ => id) ?_)
    rintro p ⟨hp, hstrength, heval⟩
    refine meets_pure ⟨hp, fun e he => ?_⟩
    rcases List.mem_append.mp he with he | he
    · exact hmade e he
    · rw [List.mem_singleton.mp he, hstrength, heval]
      exact ⟨hpos, hzero⟩
  · rintro ⟨made, r'⟩ ⟨hr', hmade⟩
    dsimp only at hr' hmade ⊢
    rw [← hr'] at hs hmade ⊢
    split
    · exact meets_pure (.refl _)
    · refine meets_bind ((Relay.meets_added_met hs ?_).mono (fun _ => id) (fun _ hp => meets_pure hp))
      intro d hd
      obtain ⟨e, he, rfl⟩ := List.mem_map.mp hd
      exact hmade e he

end Applying

section Runs

variable {s : Solver Rat} {calls : List (SolverCall Rat)} {answers : List (SolverAnswer Rat)}

/-- After every run, adding a constraint that is exactly met at the current values succeeds
and moves nothing: the known variables keep their values, and those that are made are zero.
So beginning an edit moves nothing, and neither does applying proxy constraints that their
constant terms, read from the current values, make up for, however often that is done. -/
theorem met_constraint_moves_nothing (settings : Settings Rat) (limit limit' : Nat)
    (hw : ∀ call ∈ calls, call.Weighted)
    (hrun : (Solver.empty settings).run limit calls = .ok (s, answers)) :
    (∀ (c : Constraint Rat) (u : Solver Rat) (answer : Except AddError Unit),
      s.hasConstraint c = false → 0 ≤ c.strength.value → c.expression.eval s.value = 0 →
        s.add limit' c = .ok (u, answer) → answer = .ok () ∧ s.Stays u) ∧
    (∀ (v : Variable) (strength : Strength Rat) (u : Solver Rat) (answer : Except EditError Unit),
      s.addEdit limit' v strength = .ok (u, answer) → s.Stays u) ∧
    ∀ (t t' : Tracker Rat) (r r' : Relay Rat) (fallback : Variable → Rat), r.solver = s →
      (∀ v, s.hasVariable v = false → fallback v = 0) →
      (∀ c ∈ t.waiting, 0 ≤ c.strength.value ∧
        c.expression.eval (fun v => s.value (t.replacement v)) = 0) →
      (t.apply (Relay.listener limit' fallback)).run r = .ok (t', r') → s.Stays r'.solver := by
  have hs : s.Sound := Solver.sound_run settings limit hw _ hrun
  refine ⟨fun c u answer hnew hpos hmet hadd => ?_, fun v strength u answer hedit => ?_, ?_⟩
  · obtain ⟨hok, -, hstays⟩ := hs.stays_add hpos hmet hnew limit' _ hadd
    exact ⟨hok, hstays⟩
  · exact hs.stays_addEdit limit' v strength _ hedit
  · rintro t t' r r' fallback rfl hfallback hmet happly
    exact (Tracker.stays_apply hs hfallback hmet).of_ok happly

/-- A layer that is to follow a touch at a distance stays at rest when that is asked for. -/
theorem offset_drag_leaves_layer_at_rest :
    ∃ (s u w : Solver Rat) (answers : List (SolverAnswer Rat)) (t t' : Tracker Rat)
      (r' : Relay Rat) (rest drag link : Constraint Rat),
      rest = ⟨"rest", ⟨[.symbolic ⟨.entity ⟨10⟩, .positionX⟩ 1], -20⟩, .equalTo, .weak⟩ ∧
      drag = ⟨"offset drag", ⟨[.symbolic ⟨.entity ⟨10⟩, .positionX⟩ 1,
        .symbolic ⟨.proxy 0, .positionX⟩ (-1), .sampled ⟨.proxy 0, .positionX⟩ 1,
        .sampled ⟨.entity ⟨10⟩, .positionX⟩ (-1)], 0⟩, .equalTo, .required⟩ ∧
      link = ⟨"link", ⟨[.symbolic ⟨.entity ⟨10⟩, .positionX⟩ 1,
        .symbolic (.ofTouch ⟨1⟩ .positionX) (-1)], 80⟩, .equalTo, .required⟩ ∧
      t = ⟨.standard, ⟨[(⟨1⟩, ⟨100, 0⟩)]⟩, [drag], .empty⟩ ∧
      (Solver.empty .standard).run 9 [.add rest, .addEdit (.ofTouch ⟨1⟩ .positionX) .touch,
        .suggest (.ofTouch ⟨1⟩ .positionX) 100] = .ok (s, answers) ∧
      s.value? ⟨.entity ⟨10⟩, .positionX⟩ = some 20 ∧
      s.add 9 link = .ok (u, .ok ()) ∧ s.Stays u ∧
      s.addEdit 9 ⟨.entity ⟨10⟩, .positionX⟩ .strong = .ok (w, .ok ()) ∧ s.Stays w ∧
      (t.apply (Relay.listener 9 (fun _ => 0))).run (Relay.ofSolver s) = .ok (t', r') ∧
      t'.isApplied drag = true ∧ s.Stays r'.solver := by
  obtain ⟨rest, hrest⟩ : ∃ c : Constraint Rat, c =
    ⟨"rest", ⟨[.symbolic ⟨.entity ⟨10⟩, .positionX⟩ 1], -20⟩, .equalTo, .weak⟩ := ⟨_, rfl⟩
  obtain ⟨drag, hdrag⟩ : ∃ c : Constraint Rat, c =
    ⟨"offset drag", ⟨[.symbolic ⟨.entity ⟨10⟩, .positionX⟩ 1,
      .symbolic ⟨.proxy 0, .positionX⟩ (-1), .sampled ⟨.proxy 0, .positionX⟩ 1,
      .sampled ⟨.entity ⟨10⟩, .positionX⟩ (-1)], 0⟩, .equalTo, .required⟩ := ⟨_, rfl⟩
  obtain ⟨link, hlink⟩ : ∃ c : Constraint Rat, c =
    ⟨"link", ⟨[.symbolic ⟨.entity ⟨10⟩, .positionX⟩ 1,
      .symbolic (.ofTouch ⟨1⟩ .positionX) (-1)], 80⟩, .equalTo, .required⟩ := ⟨_, rfl⟩
  obtain ⟨t, ht⟩ : ∃ t : Tracker Rat, t =
    ⟨.standard, ⟨[(⟨1⟩, ⟨100, 0⟩)]⟩, [drag], .empty⟩ := ⟨_, rfl⟩
  have hchain : ((Solver.empty .standard : Solver Rat).run 9 [.add rest,
      .addEdit (.ofTouch ⟨1⟩ .positionX) .touch,
      .suggest (.ofTouch ⟨1⟩ .positionX) 100]).toOption.any (fun p =>
        decide (p.1.value? ⟨.entity ⟨10⟩, .positionX⟩ = some 20) && !p.1.hasConstraint link &&
        decide (link.expression.eval p.1.value = 0) && (p.1.add 9 link).toOption.isSome &&
        (p.1.addEdit 9 ⟨.entity ⟨10⟩, .positionX⟩ .strong).toOption.any
          (fun q => q.2.toOption.isSome) &&
        decide (∀ c ∈ t.waiting, 0 ≤ c.strength.value ∧
          c.expression.eval (fun v => p.1.value (t.replacement v)) = 0) &&
        ((t.apply (Relay.listener 9 (fun _ => 0))).run (Relay.ofSolver p.1)).toOption.any
          (fun q => q.1.isApplied drag)) = true := by
    subst hrest hlink ht hdrag
    decide +kernel
  obtain ⟨⟨s, answers⟩, hrun, hrest'⟩ := exists_ok_of_any hchain
  simp only [Bool.and_eq_true, decide_eq_true_eq, Bool.not_eq_true'] at hrest'
  obtain ⟨⟨⟨⟨⟨⟨hvalue, hnew⟩, hmet⟩, hadds⟩, hedits⟩, hwaiting⟩, happlies⟩ := hrest'
  obtain ⟨hadding, hediting, happlying⟩ :=
    met_constraint_moves_nothing .standard 9 9 (by subst hrest; decide +kernel) hrun
  obtain ⟨⟨u, answer⟩, hadd, -⟩ := exists_ok_of_any (p := fun _ => true)
    (o := s.add 9 link) (by simpa using hadds)
  have hstrength : 0 ≤ link.strength.value := by
    subst hlink
    decide +kernel
  obtain ⟨rfl, hu⟩ := hadding link u answer hnew hstrength hmet hadd
  obtain ⟨⟨w, answer⟩, hedit, hdone⟩ := exists_ok_of_any hedits
  obtain rfl : answer = .ok () := by
    cases answer with
    | ok _ => rfl
    | error _ => cases hdone
  obtain ⟨⟨t', r'⟩, happly, happlied⟩ := exists_ok_of_any happlies
  have hr' := happlying t t' (Relay.ofSolver s) r' _ rfl (fun _ _ => rfl) hwaiting happly
  exact ⟨s, u, w, answers, t, t', r', rest, drag, link, hrest, hdrag, hlink, ht, hrun, hvalue,
    hadd, hu, hedit, hediting _ _ w _ hedit, happly, happlied, hr'⟩

end Runs

end Tether
