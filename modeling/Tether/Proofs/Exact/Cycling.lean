import Tether.Proofs.Exact.Undertaking

/-!
# Calls that go round

The entering rule takes the most negative coefficient and the leaving rule the
smallest ratio, both the smallest number among equals.  These rules do not keep a
loop from coming back to a basis.

* A call ends exactly if none of its loops comes back to a basis.
* A loop that does not comes to an end within as many pivots as there are sets of
  symbols.
* A loop that does goes round without end, by degenerate pivots.

All three kinds of loops can go round.  In `corner` two rows beside the bounds hold
with equality where no entity has a width; from there a loop that lowers `ceiling`
exchanges symbols and does not move, be the constraint preferred or probed.  In
`wedge` a dual loop lets in symbols that the objective does not mention, so it
raises nothing.
-/

namespace Tether

open Simplex

namespace Solver

variable {s start : Solver Rat} {loop : Loop} {call : SolverCall Rat}
  {calls : List (SolverCall Rat)} {answers : List (SolverAnswer Rat)}

section Ending

theorem Loop.Proceeds.ends_iff (h : loop.Proceeds start start) :
    loop.Ends start ↔ ¬ loop.Revisits start := by
  constructor
  · rintro ⟨limit, hends⟩ hr
    exact hends (h.unfinished hr limit)
  · intro hr
    obtain ⟨p, hp⟩ := h.exists_iterate hr
    exact ⟨2 ^ start.tableau.symbolCount, by simp [hp]⟩

theorem Sound.ends_iff (hs : s.Sound) (hw : call.Weighted) :
    Ends (fun limit => s.perform limit call) ↔
      ∀ loop start, Undertakes s call loop start → ¬ loop.Revisits start := by
  rw [ends_perform_iff]
  refine forall₂_congr (fun loop start => forall_congr' (fun h => ?_))
  exact (hs.proceeds_of_undertakes hw h).ends_iff

/-- A call of which a loop goes round does not end. -/
theorem Sound.perform_unfinished (hs : s.Sound) (hw : call.Weighted)
    (h : Undertakes s call loop start) (hr : loop.Revisits start) (limit : Nat) :
    s.perform limit call = .error .unfinished := by
  by_contra hne
  exact (hs.ends_iff hw).mp ⟨limit, hne⟩ loop start h hr

/-- After every run, a call ends if and only if none of its loops comes back to a
basis.  A loop that never does makes at most as many pivots as there are sets of
symbols; a loop that does goes round under every limit.  A basis that a loop comes
back to is left by a degenerate pivot. -/
theorem ends_iff_no_basis_revisited (settings : Settings Rat) (limit : Nat)
    (hw : ∀ call ∈ calls, call.Weighted)
    (hrun : (empty settings).run limit calls = .ok (s, answers)) (hcall : call.Weighted) :
    (Ends (fun limit' => s.perform limit' call) ↔
      ∀ loop start, Undertakes s call loop start → ¬ loop.Revisits start) ∧
    ∀ loop start, Undertakes s call loop start →
      (¬ loop.Revisits start →
        ∃ p, iterate loop.step (2 ^ start.tableau.symbolCount) start = .ok p) ∧
      (loop.Revisits start → ∀ limit', iterate loop.step limit' start = .error .unfinished) ∧
      ∀ t t' u, Visits loop.step start t → loop.step t = .pivoted t' → Visits loop.step t' u →
        u.tableau.basicNumbers = t.tableau.basicNumbers → loop.Degenerate t t' := by
  have hs : s.Sound := sound_run settings limit hw _ hrun
  refine ⟨hs.ends_iff hcall, fun loop start h => ?_⟩
  have hproceeds := hs.proceeds_of_undertakes hcall h
  refine ⟨hproceeds.exists_iterate, hproceeds.unfinished, fun t t' u ht hp hu hb => ?_⟩
  exact hproceeds.degenerate ht hp hu hb

/-- The suggestion of a value above a required bound comes back to no basis. -/
theorem suggestion_revisits_no_basis :
    ∃ (s start : Solver Rat) (answers : List (SolverAnswer Rat)),
      (empty .standard).run 9 [.add ⟨"floor", ⟨[.symbolic ⟨.entity ⟨0⟩, .width⟩ 1], -2⟩,
        .greaterOrEqual, .required⟩, .addEdit ⟨.entity ⟨0⟩, .width⟩ .strong] =
          .ok (s, answers) ∧
      (SolverCall.suggest ⟨.entity ⟨0⟩, .width⟩ (5 : Rat)).Weighted ∧
      Undertakes s (.suggest ⟨.entity ⟨0⟩, .width⟩ 5) .dual start ∧
      ¬ Loop.dual.Revisits start ∧
      ∃ p, iterate dualStep (2 ^ start.tableau.symbolCount) start = .ok p := by
  have hchain : ((empty .standard : Solver Rat).run 9 [.add ⟨"floor",
      ⟨[.symbolic ⟨.entity ⟨0⟩, .width⟩ 1], -2⟩, .greaterOrEqual, .required⟩,
      .addEdit ⟨.entity ⟨0⟩, .width⟩ .strong]).toOption.any (fun p =>
        (p.1.perform 1 (.suggest ⟨.entity ⟨0⟩, .width⟩ 5)).toOption.isSome &&
        (p.1.edits.get? ⟨.entity ⟨0⟩, .width⟩).any (fun edit =>
          !Scalar.isZero (5 - edit.constant))) = true := by
    decide +kernel
  obtain ⟨⟨s, answers⟩, hrun, hrest⟩ := exists_ok_of_any hchain
  obtain ⟨hsome, hloop⟩ := Bool.and_eq_true_iff.mp hrest
  obtain ⟨p, hperform, -⟩ := exists_ok_of_any (p := fun _ => true)
    (o := s.perform 1 (.suggest ⟨.entity ⟨0⟩, .width⟩ 5)) (by simpa using hsome)
  obtain ⟨edit, hv, hmoved⟩ := (Option.any_eq_true _ _).mp hloop
  have hcall : (SolverCall.suggest ⟨.entity ⟨0⟩, .width⟩ (5 : Rat)).Weighted := by decide +kernel
  have hstart := Undertakes.single (Starts.suggest hv (by simpa using hmoved))
  obtain ⟨hiff, hloops⟩ := ends_iff_no_basis_revisited .standard 9 (by decide +kernel) hrun hcall
  have hnever := hiff.mp ⟨1, by simp [hperform]⟩ _ _ hstart
  exact ⟨s, _, answers, hrun, hcall, hstart, hnever, (hloops _ _ hstart).1 hnever⟩

end Ending

section Rounds

/-- Some pivots lead back to the basis that the loop starts from. -/
def Loop.returns (loop : Loop) (pivots : Nat) (start : Solver Rat) : Bool :=
  (after loop.step (pivots + 1) start).any
    (fun u => u.tableau.basicNumbers = start.tableau.basicNumbers)

/-- Calls with positive weights come to a state in which a loop of another such call
comes back to the basis that it starts from, and this call ends under no limit. -/
def GoesRound (calls : List (SolverCall Rat)) (call : SolverCall Rat) (loop : Loop) : Prop :=
  (∀ call ∈ calls, call.Weighted) ∧ call.Weighted ∧
    ∃ (s start u : Solver Rat) (answers : List (SolverAnswer Rat)),
      (empty .standard).run 9 calls = .ok (s, answers) ∧ Undertakes s call loop start ∧
      Precedes loop.step start u ∧ u.tableau.basicNumbers = start.tableau.basicNumbers ∧
      ∀ limit, s.perform limit call = .error .unfinished

theorem goesRound_of_returns {pivots : Nat} (hw : ∀ call ∈ calls, call.Weighted)
    (hcall : call.Weighted) (hrun : (empty .standard).run 9 calls = .ok (s, answers))
    (h : Undertakes s call loop start) (hreturns : loop.returns pivots start = true) :
    GoesRound calls call loop := by
  obtain ⟨u, hu, hb⟩ := (Option.any_eq_true _ _).mp hreturns
  have hround := precedes_of_after hu
  have hsame := of_decide_eq_true hb
  have hs : s.Sound := sound_run .standard 9 hw _ hrun
  exact ⟨hw, hcall, s, start, u, answers, hrun, h, hround, hsame,
    hs.perform_unfinished hcall h ⟨start, u, .here start, hround, hsame⟩⟩

/-- The width of an entity. -/
def width (n : UInt64) : Variable :=
  ⟨.entity ⟨n⟩, .width⟩

/-- A constraint on widths. -/
def onWidths (name : String) (terms : List (UInt64 × Rat)) (constant : Rat) (relation : Relation)
    (strength : Strength Rat) : Constraint Rat :=
  ⟨name, ⟨terms.map (fun t => .symbolic (width t.1) t.2), constant⟩, relation, strength⟩

/-- The constraint that a sum of widths is not negative. -/
def nonnegative (terms : List (UInt64 × Rat)) : SolverCall Rat :=
  .add (onWidths "nonnegative" terms 0 .greaterOrEqual .required)

/-- Two rows that hold with equality where no entity has a width. -/
def corner : List (SolverCall Rat) :=
  [nonnegative [(0, 1)], nonnegative [(1, 1)], nonnegative [(2, 1)], nonnegative [(3, 1)],
    nonnegative [(0, 2), (1, -4), (2, -1/2), (3, 5)],
    nonnegative [(0, 1), (1, -1), (2, -1/2), (3, 3)]]

/-- The goal that is lowered from the corner. -/
def ceiling (strength : Strength Rat) : Constraint Rat :=
  onWidths "ceiling" [(1, 3), (2, -1), (3, 5)] 1 .lessOrEqual strength

/-- Rows around an edit variable that meet where no entity has a width. -/
def wedge : List (SolverCall Rat) :=
  [.addEdit (width 4) .strong, nonnegative [(0, 1)], nonnegative [(1, 1)],
    nonnegative [(4, -1), (0, 1/2), (1, 1/2)], nonnegative [(4, 5), (0, -5), (1, -3)],
    nonnegative [(0, -2), (1, -1)], nonnegative [(4, 2), (0, 4), (1, 1)]]

theorem corner_weighted : ∀ call ∈ corner, call.Weighted := by
  decide +kernel

theorem wedge_weighted : ∀ call ∈ wedge, call.Weighted := by
  decide +kernel

theorem ceiling_unresolved (strength : Strength Rat) :
    (ceiling strength).hasProxies = false := by
  rfl

/-- A preference added at the corner makes the objective go round. -/
theorem preference_goes_round : GoesRound corner (.add (ceiling .weak)) (.primal .primary) := by
  have hchain : ((empty .standard : Solver Rat).run 9 corner).toOption.any (fun p =>
      !p.1.hasConstraint (ceiling .weak) &&
      (subject? (p.1.createRow (ceiling .weak)).1 (p.1.createRow (ceiling .weak)).2.1).any
        (fun x => (Loop.primal .primary).returns 5
          (((p.1.createRow (ceiling .weak)).2.2.enter x
            ((p.1.createRow (ceiling .weak)).1.solveFor x)).enlist (ceiling .weak)
              (p.1.createRow (ceiling .weak)).2.1))) = true := by
    decide +kernel
  obtain ⟨⟨s, answers⟩, hrun, hrest⟩ := exists_ok_of_any hchain
  obtain ⟨hnew, hrest⟩ := Bool.and_eq_true_iff.mp hrest
  obtain ⟨x, hx, hreturns⟩ := (Option.any_eq_true _ _).mp hrest
  have hstart := Starts.add (ceiling_unresolved .weak) (by simpa using hnew) (.subject hx)
  exact goesRound_of_returns corner_weighted (by decide +kernel) hrun (.single hstart) hreturns

/-- The same constraint as a requirement makes its probe go round. -/
theorem requirement_goes_round :
    GoesRound corner (.add (ceiling .required)) (.primal .artificial) := by
  have hchain : ((empty .standard : Solver Rat).run 9 corner).toOption.any (fun p =>
      !p.1.hasConstraint (ceiling .required) &&
      ((subject? (p.1.createRow (ceiling .required)).1
        (p.1.createRow (ceiling .required)).2.1).isNone &&
      (!(p.1.createRow (ceiling .required)).1.allDummies &&
      (Loop.primal .artificial).returns 5 (host { (p.1.createRow (ceiling .required)).2.2 with
        tableau := (p.1.createRow (ceiling .required)).2.2.tableau.openJournal }
          (p.1.createRow (ceiling .required)).1)))) = true := by
    decide +kernel
  obtain ⟨⟨s, answers⟩, hrun, hrest⟩ := exists_ok_of_any hchain
  dsimp only at hrest
  obtain ⟨hnew, hrest⟩ := Bool.and_eq_true_iff.mp hrest
  obtain ⟨hx, hrest⟩ := Bool.and_eq_true_iff.mp hrest
  obtain ⟨hdummies, hreturns⟩ := Bool.and_eq_true_iff.mp hrest
  have hstart := Starts.add (ceiling_unresolved .required) (by simpa using hnew)
    (.probing (by simpa using hx) (by simpa using hdummies))
  exact goesRound_of_returns corner_weighted (by decide +kernel) hrun (.single hstart) hreturns

/-- A suggestion in the wedge makes the dual loop go round. -/
theorem suggestion_goes_round : GoesRound wedge (.suggest (width 4) 1) .dual := by
  have hchain : ((empty .standard : Solver Rat).run 9 wedge).toOption.any (fun p =>
      (p.1.edits.get? (width 4)).any (fun edit => !Scalar.isZero (1 - edit.constant) &&
        Loop.dual.returns 5 (shiftEdit { p.1 with
          edits := p.1.edits.modify (width 4) (fun edit => { edit with constant := 1 }) }
            edit.tag (1 - edit.constant)))) = true := by
    decide +kernel
  obtain ⟨⟨s, answers⟩, hrun, hrest⟩ := exists_ok_of_any hchain
  obtain ⟨edit, hv, hrest⟩ := (Option.any_eq_true _ _).mp hrest
  obtain ⟨hmoved, hreturns⟩ := Bool.and_eq_true_iff.mp hrest
  have hstart := Starts.suggest hv (by simpa using hmoved)
  exact goesRound_of_returns wedge_weighted (by decide +kernel) hrun (.single hstart) hreturns

/-- Each kind of loops can come back to a basis without end. -/
theorem pivot_loops_go_round :
    GoesRound corner (.add (ceiling .weak)) (.primal .primary) ∧
      GoesRound corner (.add (ceiling .required)) (.primal .artificial) ∧
      GoesRound wedge (.suggest (width 4) 1) .dual :=
  ⟨preference_goes_round, requirement_goes_round, suggestion_goes_round⟩

end Rounds

end Solver
end Tether
