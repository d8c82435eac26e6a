import Tether.Proofs.Solver.Rejection
import Tether.Solver.Call

/-!
# Calls, runs and breakdowns

What every call keeps, a run keeps.  An addition, a removal or a suggestion that
does not break down leaves the solver idle: no probe under way, no journal open,
no row recorded as infeasible.
-/

namespace Tether

open Simplex

section Breakdowns

/-- Whether a failure is a breakdown of the solver. -/
def SolverError.isInternal : SolverError → Bool
  | .addConstraint (.internal _) => true
  | .removeConstraint (.internal _) => true
  | .editVariable (.internal _) => true
  | .suggestValue (.internal _) => true
  | _ => false

/-- Whether an answer reports a breakdown of the solver. -/
def SolverAnswer.isInternal {α : Type} : SolverAnswer α → Bool
  | .failed e => e.isInternal
  | _ => false

theorem SolverError.isInternal_iff {e : SolverError} : e.isInternal = true ↔ ∃ text,
    e = .addConstraint (.internal text) ∨ e = .removeConstraint (.internal text) ∨
      e = .editVariable (.internal text) ∨ e = .suggestValue (.internal text) := by
  unfold isInternal
  split <;> simp_all

/-- An answer that is not a breakdown. -/
def Calm {ε : Type} (internal : String → ε) (answer : Except ε Unit) : Prop :=
  ∀ text, answer ≠ .error (internal text)

theorem calm_ok {ε : Type} (internal : String → ε) : Calm internal (.ok ()) := by
  intro text h
  cases h

theorem calm_error {ε : Type} {internal : String → ε} {e : ε} (h : ∀ text, e ≠ internal text) :
    Calm internal (.error e) :=
  fun text he => h text (Except.error.inj he)

/-- A call reports a breakdown exactly if its own answer is one. -/
theorem isInternal_ofExcept_eq_false_iff {α ε : Type} {internal : String → ε}
    {wrap : ε → SolverError} (hw : ∀ e, (wrap e).isInternal = true ↔ ∃ text, e = internal text)
    {answer : Except ε Unit} :
    (SolverAnswer.ofExcept wrap answer : SolverAnswer α).isInternal = false ↔
      Calm internal answer := by
  cases answer with
  | ok done => exact iff_of_true rfl (calm_ok internal)
  | error e =>
      show (wrap e).isInternal = false ↔ _
      rw [← Bool.not_eq_true, hw, not_exists]
      exact ⟨calm_error, fun h text he => h text (congrArg Except.error he)⟩

theorem calm_of_mapError {ε δ : Type} {internal : String → ε} {internal' : String → δ}
    {f : ε → δ} (hf : ∀ text, f (internal text) = internal' text) {answer : Except ε Unit}
    (h : Calm internal' (answer.mapError f)) : Calm internal answer := by
  rintro text rfl
  exact h text (congrArg Except.error (hf text))

end Breakdowns

namespace Simplex
namespace Tableau

variable {α : Type} {t : Tableau α}

theorem journal_save (h : t.journal = none) (id : Nat) : (t.save id).journal = none := by
  unfold save
  rw [h]
  exact h

theorem journal_modifyMentioning (h : t.journal = none) (x : Symbol)
    (f : Symbol → Row α → Row α) : (t.modifyMentioning x f).journal = none :=
  modifyMentioning_induction (motive := fun u => u.journal = none) h
    (fun _ y hu => journal_save hu y.id)

theorem journal_rollback (t : Tableau α) : t.rollback.journal = none := by
  unfold rollback
  split
  · assumption
  · exact (foldl_restore_keeps _ _).2.2.2

end Tableau
end Simplex

namespace Solver

variable {α : Type} {s : Solver α}

section Sequences

theorem ensures_forEach {β ε : Type} {call : Solver α → β → Outcome (Solver α) ε}
    {I : Solver α → Prop} {Q : Solver α × Except ε Unit → Prop} {xs : List β}
    (hstep : ∀ s, I s → ∀ x ∈ xs, Ensures (call s x)
      (fun p => (p.2 = .ok () → I p.1) ∧ ∀ e, p.2 = .error e → Q p))
    (hdone : ∀ s, I s → Q (s, .ok ())) (hs : I s) : Ensures (forEach call s xs) Q := by
  induction xs generalizing s with
  | nil => exact ensures_ok (hdone s hs)
  | cons x rest ih =>
      refine Ensures.bind ((hstep s hs x (by simp)).mono ?_)
      rintro ⟨s', answer⟩ ⟨hok, herr⟩
      cases answer with
      | error e => exact ensures_ok (herr e rfl)
      | ok u => exact ih (fun s hs y hy => hstep s hs y (List.mem_cons_of_mem x hy)) (hok rfl)

/-- No probe is under way. -/
def Quiet (s : Solver α) : Prop :=
  s.artificial = none ∧ s.tableau.journal = none

theorem Idle.quiet (h : s.Idle) : s.Quiet :=
  ⟨h.artificial, h.journal⟩

variable [Scalar α]

/-- What every call keeps as long as its answer is of a kind, a run keeps as
long as its answers are. -/
theorem ensures_run {I : Solver α → Prop} {A : SolverAnswer α → Prop} (limit : Nat)
    {calls : List (SolverCall α)}
    (hstep : ∀ s, I s → ∀ call ∈ calls,
      Ensures (s.perform limit call) (fun p => A p.2 → I p.1))
    (hs : I s) :
    Ensures (s.run limit calls) (fun p => (∀ a ∈ p.2, A a) → I p.1) := by
  induction calls generalizing s with
  | nil => exact ensures_ok (fun _ => hs)
  | cons call rest ih =>
      refine Ensures.bind ((hstep s hs call (by simp)).mono ?_)
      rintro ⟨s', first⟩ hfirst
      refine Ensures.map ?_
      intro p hp ha
      have hs' := hfirst (ha first (by simp))
      exact ih (fun s hs c hc => hstep s hs c (List.mem_cons_of_mem call hc)) hs' p hp
        (fun a hm => ha a (List.mem_cons_of_mem first hm))

end Sequences

variable [Scalar α]

section Idle

theorem rowStable_journal : RowStable (fun s : Solver α => s.tableau.journal = none) where
  dropRow := fun _ x h => Tableau.journal_save h x.id
  enter := fun _ x _ h => Tableau.journal_save (Tableau.journal_modifyMentioning h x _) x.id
  dropArtificial := fun _ x h => Tableau.journal_modifyMentioning h x _

theorem rowStable_quiet : RowStable (Quiet : Solver α → Prop) :=
  rowStable_artificial.and rowStable_journal

theorem idle_empty (settings : Settings α) : (empty settings).Idle :=
  ⟨rfl, rfl, rfl⟩

theorem Quiet.idle_reoptimize {ε : Type} (h : s.Quiet) (limit : Nat)
    (internal : String → ε) :
    Ensures (reoptimize limit internal s) (fun p => Calm internal p.2 → p.1.Idle) := by
  refine ensures_reoptimize ((rowStable_quiet.optimize h .primary limit).mono ?_)
  rintro p ⟨ha, hj⟩
  exact ⟨fun _ _ => ⟨ha, hj, rfl⟩, fun _ _ hc => absurd rfl (hc _)⟩

theorem Quiet.idle_install (h : s.Quiet) (limit : Nat) (c : Constraint α) (tag : Tag) :
    Ensures (install limit s c tag) (fun p => Calm AddError.internal p.2 → p.1.Idle) :=
  Quiet.idle_reoptimize (s := { s.retainVariables c with
    constraints := s.constraints.insert c tag }) h limit AddError.internal

theorem artificial_settleProbe (s : Solver α) (h : s.artificial = none) (x : Symbol)
    (success : Bool) : (s.settleProbe x success).2.artificial = none :=
  rowStable_artificial.settleProbe h x success

/-- A probe that does not break down ends with no artificial objective. -/
theorem ensures_probe_artificial (limit : Nat) (s : Solver α) (r : Row α) :
    Ensures (probe limit s r) (fun p => ∀ b, p.2 = .ok b → p.1.artificial = none) := by
  unfold probe
  refine Ensures.map ?_
  rintro ⟨s', answer⟩ -
  cases answer with
  | error why => exact fun b hb => by cases hb
  | ok u => exact fun b _ => artificial_settleProbe _ rfl _ _

theorem Idle.add (h : s.Idle) (limit : Nat) (c : Constraint α) :
    Ensures (s.add limit c) (fun p => Calm AddError.internal p.2 → p.1.Idle) := by
  have hd := s.drafts_createRow c
  have hq : (s.createRow c).2.2.Quiet :=
    ⟨hd.artificial.trans h.artificial, hd.tableau.journal_eq.trans h.journal⟩
  have henter : ∀ x q, Ensures (install limit ((s.createRow c).2.2.enter x q) c
      (s.createRow c).2.1) (fun p => Calm AddError.internal p.2 → p.1.Idle) :=
    fun x q => (rowStable_quiet.enter _ x q hq).idle_install limit c _
  refine ensures_add (fun _ _ => h) (fun _ _ _ => henter _ _) (fun _ _ _ => ?_)
    (fun _ _ _ => henter _ _)
    (fun _ _ _ _ _ => ⟨hq.1, hq.2, hd.infeasible.trans h.infeasible⟩)
  refine ensures_installByProbe ((ensures_probe_artificial limit _ _).mono (fun p ha => ?_))
  refine ⟨fun ht => ?_, fun _ _ => ⟨rfl, Tableau.journal_rollback _, rfl⟩,
    fun _ _ hc => absurd rfl (hc _)⟩
  exact Quiet.idle_install (s := p.1.keepProbe) ⟨ha true ht, rfl⟩ limit c _

theorem removalStable_journal : RemovalStable (fun s : Solver α => s.tableau.journal = none) where
  dropRow := rowStable_journal.dropRow
  substitute := fun _ x _ h => Tableau.journal_modifyMentioning h x _
  withObjective := fun _ _ h => h
  withUnknowns := fun _ _ h => h
  withEdits := fun _ _ h => h

theorem removalStable_quiet : RemovalStable (Quiet : Solver α → Prop) where
  dropRow := rowStable_quiet.dropRow
  substitute := by
    intro s x q h
    refine ⟨?_, removalStable_journal.substitute s x q h.2⟩
    show s.artificial.map _ = none
    rw [h.1]
    rfl
  withObjective := fun _ _ h => h
  withUnknowns := fun _ _ h => h
  withEdits := fun _ _ h => h

theorem Idle.remove (h : s.Idle) (limit : Nat) (c : Constraint α) :
    Ensures (s.remove limit c) (fun p => Calm RemoveError.internal p.2 → p.1.Idle) := by
  refine ensures_remove (fun _ _ => h) (fun e _ => ?_)
  have hs : Quiet { s with constraints := s.constraints.erase c } := h.quiet
  exact (removalStable_quiet.uninstall hs _ _).idle_reoptimize limit RemoveError.internal

theorem dualStep_keeps_quiet (hs : s.Quiet) :
    (dualStep s).Keeps Quiet (fun p => p.2 = .ok () → p.1.Idle) := by
  unfold dualStep
  split
  · exact fun _ => ⟨hs.1, hs.2, rfl⟩
  · dsimp only
    split
    · intro h
      cases h
    · split
      · intro h
        cases h
      · exact rowStable_quiet.pivot (s := { s with infeasible := _ }) hs _ _ _

theorem journal_shiftEdit (h : s.tableau.journal = none) (tag : Tag) (delta : α) :
    (s.shiftEdit tag delta).tableau.journal = none := by
  have hrow : ∀ x d, (s.shiftRow x d).tableau.journal = none := by
    intro x d
    have : (s.tableau.modify x (·.shift d)).journal = none := Tableau.journal_save h x.id
    unfold shiftRow
    dsimp only
    split <;> exact this
  unfold Solver.shiftEdit
  split
  · exact hrow _ _
  · split
    · exact hrow _ _
    · exact Tableau.journal_modifyMentioning h _ _

theorem Quiet.shiftEdit (h : s.Quiet) (tag : Tag) (delta : α) : (s.shiftEdit tag delta).Quiet := by
  refine ⟨?_, journal_shiftEdit h.2 tag delta⟩
  have hrow : ∀ x d, (s.shiftRow x d).artificial = none := by
    intro x d
    unfold shiftRow
    dsimp only
    split <;> exact h.1
  unfold Solver.shiftEdit
  split
  · exact hrow _ _
  · split
    · exact hrow _ _
    · exact h.1

theorem Idle.suggest (h : s.Idle) (limit : Nat) (v : Variable) (x : α) :
    Ensures (s.suggest limit v x) (fun p => Calm SuggestError.internal p.2 → p.1.Idle) := by
  refine ensures_suggest (fun _ _ => h) (fun _ _ _ _ => ⟨h.artificial, h.journal, h.infeasible⟩)
    (fun edit _ => ?_)
  have hq : Quiet (shiftEdit { s with
      edits := s.edits.modify v (fun edit => { edit with constant := x }) } edit.tag
      (x - edit.constant)) := by
    refine Quiet.shiftEdit ?_ _ _
    exact h.quiet
  refine (ensures_iterate (fun _ hs => dualStep_keeps_quiet hs) limit hq).mono ?_
  rintro ⟨s', answer⟩ hi hc
  cases answer with
  | error why => exact absurd rfl (hc _)
  | ok u => exact hi rfl

end Idle

end Solver
end Tether
