import Tether.Proofs.Exact.Editing
import Tether.Proofs.Exact.Loops
import Tether.Proofs.Solver.Aims

/-!
# What a run leads to

Every call keeps a solver sound, so every solver that a run reaches is sound as
long as no strength is negative.  The results about runs follow.

* The required constraints hold at the values of the variables.
* No other values that satisfy them violate the preferences less.
* An addition is rejected if and only if no values satisfy the new constraint
  beside the required ones.
* No call breaks down.
-/

namespace Tether

open Simplex

/-- The constraints that a call adds. -/
def SolverCall.added {α : Type} : SolverCall α → List (Constraint α)
  | .add c => [c]
  | .addAll cs => cs
  | _ => []

/-- No added constraint has a negative strength.  The strengths of edit variables
are cut, so they do not matter. -/
def SolverCall.Weighted (call : SolverCall Rat) : Prop :=
  ∀ c ∈ call.added, 0 ≤ c.strength.value

instance (call : SolverCall Rat) : Decidable call.Weighted :=
  inferInstanceAs (Decidable (∀ c ∈ call.added, 0 ≤ c.strength.value))

namespace Solver

variable {s : Solver Rat}

section Calls

theorem optimal_empty (settings : Settings Rat) : (empty settings : Solver Rat).Optimal [] where
  layered := by
    refine ⟨(ledger_empty settings).proper, ?_, ?_, ?_⟩
    · intro b hb
      cases hb
    · exact ⟨Row.reduced_ofConstant 0, by simp [empty], by simp⟩
    · intro r hr
      cases hr
  feasible := by
    intro b hb
    cases hb
  models := by
    refine ⟨fun σ => ?_, 0, fun σ _ => ?_⟩
    · constructor
      · intro _ e he
        cases he
      · intro _ b hb
        cases hb
    · rfl
  settled := by
    intro y _
    exact Rat.le_refl

theorem sound_empty (settings : Settings Rat) : (empty settings : Solver Rat).Sound := by
  refine ⟨ledger_empty settings, idle_empty settings, optimal_empty settings, ?_⟩
  intro e he
  cases he

/-- A flush does not change what symbols give to the variables. -/
theorem read_flush (s : Solver Rat) : s.flush.1.read = s.read := by
  funext σ v
  unfold read Solver.flush markReported
  dsimp only
  rw [OrderedMap.get?_mapValues]
  cases s.unknowns.get? v with
  | none => rfl
  | some entry =>
      simp only [Option.map_some]
      split <;> rfl

theorem Sound.flush (h : s.Sound) : s.flush.1.Sound where
  ledger := h.ledger.flush
  idle := ⟨h.idle.artificial, h.idle.journal, h.idle.infeasible⟩
  optimal := ⟨h.optimal.toStanding.congr rfl rfl rfl rfl (read_flush s), h.optimal.settled⟩
  weights := h.weights

theorem Sound.addAll (h : s.Sound) (limit : Nat) {cs : List (Constraint Rat)}
    (hpos : ∀ c ∈ cs, 0 ≤ c.strength.value) :
    Ensures (s.addAll limit cs) (fun p => Calm AddError.internal p.2 ∧ p.1.Sound) :=
  ensures_forEach
    (fun _ hs c hc => (hs.add (hpos c hc) limit).mono
      (fun _ hp => ⟨fun _ => hp.2, fun _ _ => hp⟩))
    (fun _ hs => ⟨calm_ok _, hs⟩) h

theorem Sound.removeAll (h : s.Sound) (limit : Nat) (cs : List (Constraint Rat)) :
    Ensures (s.removeAll limit cs) (fun p => Calm RemoveError.internal p.2 ∧ p.1.Sound) :=
  ensures_forEach
    (fun _ hs c _ => (hs.remove limit c).mono (fun _ hp => ⟨fun _ => hp.2, fun _ _ => hp⟩))
    (fun _ hs => ⟨calm_ok _, hs⟩) h

/-- No call breaks down, and every call keeps a solver sound. -/
theorem Sound.perform (h : s.Sound) (limit : Nat) {call : SolverCall Rat} (hw : call.Weighted) :
    Ensures (s.perform limit call) (fun p => p.2.isInternal = false ∧ p.1.Sound) := by
  have hanswer : ∀ {ε : Type} {internal : String → ε} {wrap : ε → SolverError}
      {outcome : Outcome (Solver Rat) ε},
      (∀ e, (wrap e).isInternal = true ↔ ∃ text, e = internal text) →
      Ensures outcome (fun p => Calm internal p.2 ∧ p.1.Sound) →
      Ensures (answer wrap outcome) (fun p => p.2.isInternal = false ∧ p.1.Sound) := by
    intro ε internal wrap outcome hw ho
    exact Ensures.map (ho.mono (fun _ hp => ⟨(isInternal_ofExcept_eq_false_iff hw).mpr hp.1, hp.2⟩))
  cases call with
  | add c =>
      exact hanswer (by simp [SolverError.isInternal_iff])
        (h.add (hw c (by simp [SolverCall.added])) limit)
  | addAll cs =>
      exact hanswer (by simp [SolverError.isInternal_iff]) (h.addAll limit hw)
  | remove c =>
      exact hanswer (by simp [SolverError.isInternal_iff]) (h.remove limit c)
  | removeAll cs =>
      exact hanswer (by simp [SolverError.isInternal_iff]) (h.removeAll limit cs)
  | hasConstraint c => exact ensures_ok ⟨rfl, h⟩
  | addEdit v strength =>
      exact hanswer (by simp [SolverError.isInternal_iff]) (h.addEdit limit v strength)
  | removeEdit v =>
      exact hanswer (by simp [SolverError.isInternal_iff]) (h.removeEdit limit v)
  | hasEditVariable v => exact ensures_ok ⟨rfl, h⟩
  | hasVariable v => exact ensures_ok ⟨rfl, h⟩
  | suggest v x =>
      exact hanswer (by simp [SolverError.isInternal_iff]) (h.suggest limit v x)
  | value v => exact ensures_ok ⟨rfl, h⟩
  | flush => exact ensures_ok ⟨rfl, h.flush⟩
  | constraints => exact ensures_ok ⟨rfl, h⟩
  | settings => exact ensures_ok ⟨rfl, h⟩
  | reset => exact ensures_ok ⟨rfl, sound_empty s.settings⟩

/-- Every run ends in a sound solver. -/
theorem sound_run (settings : Settings Rat) (limit : Nat) {calls : List (SolverCall Rat)}
    (hw : ∀ call ∈ calls, call.Weighted) :
    Ensures ((empty settings).run limit calls) (fun p => p.1.Sound) :=
  (ensures_run (A := fun _ => True) limit
    (fun _ hs call hc => (hs.perform limit (hw call hc)).mono (fun _ hp _ => hp.2))
    (sound_empty settings)).mono (fun _ hp => hp (fun _ _ => trivial))

end Calls

section Runs

variable {answers : List (SolverAnswer Rat)} {calls : List (SolverCall Rat)}

/-- After every run the required constraints hold at the values of the
variables. -/
theorem required_constraints_hold (settings : Settings Rat) (limit : Nat)
    (hw : ∀ call ∈ calls, call.Weighted)
    (hrun : (empty settings).run limit calls = .ok (s, answers)) :
    ∀ c ∈ s.constraints.keys, c.strength.isRequired = true → c.Holds s.value :=
  fun _ hc hr => (sound_run settings limit hw _ hrun).holds hc hr

/-- A suggestion below a required bound does not move the variable below it. -/
theorem bound_holds_after_suggestion :
    ∃ (s : Solver Rat) (answers : List (SolverAnswer Rat)) (floor d : Constraint Rat),
      floor = ⟨"floor", ⟨[.symbolic ⟨.entity ⟨0⟩, .width⟩ 1], -2⟩, .greaterOrEqual, .required⟩ ∧
      (empty .standard).run 9 [.add floor, .addEdit ⟨.entity ⟨0⟩, .width⟩ .strong,
        .suggest ⟨.entity ⟨0⟩, .width⟩ (-5)] = .ok (s, answers) ∧
      d ∈ s.constraints.keys ∧ d.content = floor.content ∧ d.strength.isRequired = true ∧
      d.Holds s.value := by
  have hchain : ((empty .standard : Solver Rat).run 9 [.add ⟨"floor",
      ⟨[.symbolic ⟨.entity ⟨0⟩, .width⟩ 1], -2⟩, .greaterOrEqual, .required⟩,
      .addEdit ⟨.entity ⟨0⟩, .width⟩ .strong,
      .suggest ⟨.entity ⟨0⟩, .width⟩ (-5)]).toOption.any (fun p => p.1.constraints.keys.any
        (fun d => d == ⟨"floor", ⟨[.symbolic ⟨.entity ⟨0⟩, .width⟩ 1], -2⟩, .greaterOrEqual,
          .required⟩)) = true := by
    decide +kernel
  obtain ⟨⟨s, answers⟩, hrun, hany⟩ := exists_ok_of_any hchain
  obtain ⟨d, hd, hfloor⟩ := List.any_eq_true.mp hany
  have hcontent := Constraint.beq_iff.mp hfloor
  have hr : d.strength.isRequired = true := by
    rw [show d.strength = .required from congrArg (fun p => p.2.2) hcontent]
    decide +kernel
  exact ⟨s, answers, _, d, rfl, hrun, hd, hcontent, hr,
    required_constraints_hold .standard 9 (by decide +kernel) hrun d hd hr⟩

/-- After every run the edit variables are held where they aim, and the values of
the variables satisfy the required constraints and violate the preferences as
little as any values that do, where every edit variable is preferred to be where
it is held. -/
theorem values_minimise_regret (settings : Settings Rat) (limit : Nat)
    (hw : ∀ call ∈ calls, call.Weighted)
    (hrun : (empty settings).run limit calls = .ok (s, answers)) :
    (∀ e ∈ s.edits.entries, e.2.constraint ∈ s.constraints.keys ∧
      e.2.constraint.current s.edits =
        holding e.1 ((empty settings).aimsAfter limit (fun _ => 0) calls e.1)
          e.2.constraint.strength) ∧
    (∀ c ∈ s.constraints.keys, c.strength.isRequired = true → c.Holds s.value) ∧
    ∀ ν : Variable → Rat,
      (∀ c ∈ s.constraints.keys, c.strength.isRequired = true → c.Holds ν) →
        regret s.value (s.constraints.keys.map (·.current s.edits)) ≤
          regret ν (s.constraints.keys.map (·.current s.edits)) := by
  have hsound : s.Sound := sound_run settings limit hw _ hrun
  have haims := (aimed_empty settings (fun _ => 0)).run (ledger_empty settings) limit calls _ hrun
  refine ⟨fun e he => ⟨?_, ?_⟩, fun _ hc hr => hsound.holds hc hr, fun _ hν => hsound.regret_le hν⟩
  · exact OrderedMap.mem_keys_of_mem (hsound.ledger.held.installed e he)
  · rw [hsound.ledger.held.current_constraint he, haims e he]

/-- With a required bound above what is suggested, the bound is as close as any
value that satisfies it. -/
theorem suggestion_below_bound_is_optimal :
    ∃ (s : Solver Rat) (answers : List (SolverAnswer Rat)),
      (empty .standard).run 9 [.add ⟨"floor", ⟨[.symbolic ⟨.entity ⟨0⟩, .width⟩ 1], -2⟩,
        .greaterOrEqual, .required⟩, .addEdit ⟨.entity ⟨0⟩, .width⟩ .strong,
        .suggest ⟨.entity ⟨0⟩, .width⟩ (-5)] = .ok (s, answers) ∧
      s.value ⟨.entity ⟨0⟩, .width⟩ = 2 ∧
      ∀ ν : Variable → Rat,
        (∀ c ∈ s.constraints.keys, c.strength.isRequired = true → c.Holds ν) →
          regret s.value (s.constraints.keys.map (·.current s.edits)) ≤
            regret ν (s.constraints.keys.map (·.current s.edits)) := by
  have hchain : ((empty .standard : Solver Rat).run 9 [.add ⟨"floor",
      ⟨[.symbolic ⟨.entity ⟨0⟩, .width⟩ 1], -2⟩, .greaterOrEqual, .required⟩,
      .addEdit ⟨.entity ⟨0⟩, .width⟩ .strong,
      .suggest ⟨.entity ⟨0⟩, .width⟩ (-5)]).toOption.any
        (fun p => decide (p.1.value ⟨.entity ⟨0⟩, .width⟩ = 2)) = true := by
    decide +kernel
  obtain ⟨⟨s, answers⟩, hrun, hvalue⟩ := exists_ok_of_any hchain
  exact ⟨s, answers, hrun, of_decide_eq_true hvalue,
    (values_minimise_regret .standard 9 (by decide +kernel) hrun).2.2⟩

/-- After every run, the addition of a constraint that is not installed is
rejected if and only if the constraint is required and no values satisfy it
beside the required constraints; otherwise the constraint is installed. -/
theorem rejected_iff_unsatisfiable (settings : Settings Rat) (limit limit' : Nat)
    (hw : ∀ call ∈ calls, call.Weighted)
    (hrun : (empty settings).run limit calls = .ok (s, answers)) {c : Constraint Rat}
    (hc : s.hasConstraint c = false) (hpos : 0 ≤ c.strength.value) {u : Solver Rat}
    {answer : Except AddError Unit} (hadd : s.add limit' c = .ok (u, answer)) :
    (answer = .error .unsatisfiableConstraint ↔ c.strength.isRequired = true ∧
      ¬ ∃ ν : Variable → Rat, c.Holds ν ∧
        ∀ d ∈ s.constraints.keys, d.strength.isRequired = true → d.Holds ν) ∧
    (answer ≠ .error .unsatisfiableConstraint → answer = .ok () ∧
      u.constraints.keys = s.constraints.keys ++ [c] ∧ u.hasConstraint c = true) := by
  have hs : s.Sound := sound_run settings limit hw _ hrun
  rcases hs.decides_add hc hpos limit' _ hadd with ⟨hok, hsound, hkeys⟩ | ⟨hreject, hcontra⟩
  · dsimp only at hok hsound hkeys
    have hinstalled : c ∈ u.constraints.keys := by simp [hkeys]
    refine ⟨⟨fun he => ?_, fun he => ?_⟩, fun _ => ⟨hok, hkeys, ?_⟩⟩
    · rw [hok] at he
      cases he
    · refine absurd ⟨u.value, hsound.holds hinstalled he.1, fun d hd hr => ?_⟩ he.2
      exact hsound.holds (by simp [hkeys, hd]) hr
    · rw [hasConstraint, OrderedMap.contains_eq_any_keys]
      exact List.any_eq_true.mpr ⟨c, hinstalled, Constraint.beq_iff.mpr rfl⟩
  · refine ⟨⟨fun _ => ⟨hs.isRequired_of_contradicts hcontra, ?_⟩, fun _ => hreject⟩,
      fun hne => absurd hreject hne⟩
    rintro ⟨ν, hν, hall⟩
    exact hcontra ν (fun _ => hν) hall

/-- A bound is rejected because no value lies above the one and below the
other. -/
theorem rejected_bound_is_unsatisfiable :
    ∃ (s u : Solver Rat) (answers : List (SolverAnswer Rat)) (answer : Except AddError Unit)
      (ceiling : Constraint Rat),
      ceiling = ⟨"ceiling", ⟨[.symbolic ⟨.entity ⟨0⟩, .width⟩ 1], 1⟩, .lessOrEqual, .required⟩ ∧
      (empty .standard).run 9 [.add ⟨"floor", ⟨[.symbolic ⟨.entity ⟨0⟩, .width⟩ 1], 0⟩,
        .greaterOrEqual, .required⟩] = .ok (s, answers) ∧
      s.hasConstraint ceiling = false ∧ 0 ≤ ceiling.strength.value ∧
      s.add 9 ceiling = .ok (u, answer) ∧ answer = .error .unsatisfiableConstraint ∧
      ¬ ∃ ν : Variable → Rat, ceiling.Holds ν ∧
        ∀ d ∈ s.constraints.keys, d.strength.isRequired = true → d.Holds ν := by
  have hchain : ((empty .standard : Solver Rat).run 9 [.add ⟨"floor",
      ⟨[.symbolic ⟨.entity ⟨0⟩, .width⟩ 1], 0⟩, .greaterOrEqual, .required⟩]).toOption.any
        (fun p => !p.1.hasConstraint ⟨"ceiling", ⟨[.symbolic ⟨.entity ⟨0⟩, .width⟩ 1], 1⟩,
          .lessOrEqual, .required⟩ && (p.1.add 9 ⟨"ceiling",
            ⟨[.symbolic ⟨.entity ⟨0⟩, .width⟩ 1], 1⟩, .lessOrEqual, .required⟩).toOption.any
              (fun q => decide (q.2 = .error .unsatisfiableConstraint))) = true := by
    decide +kernel
  obtain ⟨⟨s, answers⟩, hrun, hrest⟩ := exists_ok_of_any hchain
  obtain ⟨hnew, hrest⟩ := Bool.and_eq_true_iff.mp hrest
  obtain ⟨⟨u, answer⟩, hadd, hanswer⟩ := exists_ok_of_any hrest
  have hc : s.hasConstraint ⟨"ceiling", ⟨[.symbolic ⟨.entity ⟨0⟩, .width⟩ 1], 1⟩,
    .lessOrEqual, .required⟩ = false := by simpa using hnew
  have hpos : (0 : Rat) ≤ (Strength.required : Strength Rat).value := by decide +kernel
  have hreject := of_decide_eq_true hanswer
  have hiff := (rejected_iff_unsatisfiable .standard 9 9 (by decide +kernel) hrun hc hpos hadd).1
  exact ⟨s, u, answers, answer, _, rfl, hrun, hc, hpos, hadd, hreject, (hiff.mp hreject).2⟩

/-- After every run no call breaks down.  Wherever its pivot loops come to, a restricted
row gives way to the symbol that enters, and a symbol enters for the infeasible row
that leaves. -/
theorem no_call_breaks_down (settings : Settings Rat) (limit : Nat)
    (hw : ∀ call ∈ calls, call.Weighted)
    (hrun : (empty settings).run limit calls = .ok (s, answers)) {call : SolverCall Rat}
    (hcall : call.Weighted) :
    (∀ limit' u answer, s.perform limit' call = .ok (u, answer) → answer.isInternal = false) ∧
    (∀ goal start, Starts s call (.primal goal) start → ∀ t, Visits (primalStep goal) start t →
      ∃ objective, t.goalRow? goal = some objective ∧
        ∀ entering, entering? objective = some entering →
          ∃ leaving r, withRow t.tableau (leaving? t.tableau entering) = some (leaving, r) ∧
            leaving.isPivotable = true) ∧
    ∀ start, Starts s call .dual start → ∀ t, Visits dualStep start t →
      ∀ leaving, t.mostInfeasible? = some leaving →
        ∃ r entering, t.tableau.row? leaving = some r ∧ t.dualEntering? r = some entering := by
  have hs : s.Sound := sound_run settings limit hw _ hrun
  have hcalm : ∀ limit' u answer, s.perform limit' call = .ok (u, answer) →
      answer.isInternal = false :=
    fun limit' u answer hperform => (hs.perform limit' hcall _ hperform).1
  refine ⟨hcalm, fun goal start hstart t ht => ?_, fun start hstart t ht leaving hl => ?_⟩
  · exact exists_leaving_of_ne_stuck (fun _ _ => hstart.never_stuck hcalm ht)
  · exact exists_entering_of_ne_stuck (fun _ _ => hstart.never_stuck hcalm ht) hl

/-- A variable leaves its bound when a higher value is suggested: for that a symbol
enters in a dual step. -/
theorem suggestion_above_bound_is_answered :
    ∃ (s u start : Solver Rat) (answers : List (SolverAnswer Rat)) (answer : SolverAnswer Rat)
      (leaving entering : Symbol) (r : Row Rat),
      (empty .standard).run 9 [.add ⟨"floor", ⟨[.symbolic ⟨.entity ⟨0⟩, .width⟩ 1], -2⟩,
        .greaterOrEqual, .required⟩, .addEdit ⟨.entity ⟨0⟩, .width⟩ .strong] =
          .ok (s, answers) ∧
      (SolverCall.suggest ⟨.entity ⟨0⟩, .width⟩ (5 : Rat)).Weighted ∧
      s.perform 1 (.suggest ⟨.entity ⟨0⟩, .width⟩ 5) = .ok (u, answer) ∧
      answer.isInternal = false ∧
      Starts s (.suggest ⟨.entity ⟨0⟩, .width⟩ 5) .dual start ∧
      start.mostInfeasible? = some leaving ∧ start.tableau.row? leaving = some r ∧
      start.dualEntering? r = some entering := by
  have hchain : ((empty .standard : Solver Rat).run 9 [.add ⟨"floor",
      ⟨[.symbolic ⟨.entity ⟨0⟩, .width⟩ 1], -2⟩, .greaterOrEqual, .required⟩,
      .addEdit ⟨.entity ⟨0⟩, .width⟩ .strong]).toOption.any (fun p =>
        (p.1.perform 1 (.suggest ⟨.entity ⟨0⟩, .width⟩ 5)).toOption.isSome &&
        (p.1.edits.get? ⟨.entity ⟨0⟩, .width⟩).any (fun edit =>
          !Scalar.isZero (5 - edit.constant) && (mostInfeasible? (shiftEdit { p.1 with
            edits := p.1.edits.modify ⟨.entity ⟨0⟩, .width⟩
              (fun edit => { edit with constant := 5 }) } edit.tag
                (5 - edit.constant))).isSome)) = true := by
    decide +kernel
  obtain ⟨⟨s, answers⟩, hrun, hrest⟩ := exists_ok_of_any hchain
  obtain ⟨hsome, hloop⟩ := Bool.and_eq_true_iff.mp hrest
  obtain ⟨⟨u, answer⟩, hperform, -⟩ := exists_ok_of_any (p := fun _ => true)
    (o := s.perform 1 (.suggest ⟨.entity ⟨0⟩, .width⟩ 5)) (by simpa using hsome)
  obtain ⟨edit, hv, hinfeasible⟩ := (Option.any_eq_true _ _).mp hloop
  obtain ⟨hmoved, hinfeasible⟩ := Bool.and_eq_true_iff.mp hinfeasible
  obtain ⟨leaving, hleaving⟩ := Option.isSome_iff_exists.mp hinfeasible
  have hstart := Starts.suggest hv (by simpa using hmoved)
  have hcall : (SolverCall.suggest ⟨.entity ⟨0⟩, .width⟩ (5 : Rat)).Weighted := by decide +kernel
  obtain ⟨hcalm, -, hdual⟩ := no_call_breaks_down .standard 9 (by decide +kernel) hrun hcall
  obtain ⟨r, entering, hrow, hentering⟩ := hdual _ hstart _ (.here _) leaving hleaving
  exact ⟨s, u, _, answers, answer, leaving, entering, r, hrun, hcall, hperform,
    hcalm 1 u answer hperform, hstart, hleaving, hrow, hentering⟩

end Runs

end Solver
end Tether
