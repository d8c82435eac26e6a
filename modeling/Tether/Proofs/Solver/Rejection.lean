import Tether.Proofs.Solver.Calls
import Tether.Proofs.Solver.Drafting

/-!
# A rejected addition

A probe works on rows only, under a journal, and beside the books of the
solver: its settings, constraints, variables and edit variables.  So undoing
a probe leaves the solver as it was before the row was created, but for
symbols that are used up.  What has failed during the probe stays marked.
-/

namespace Tether
namespace Solver

open Simplex

variable {α : Type}

section Books

/-- What a solver keeps beside its rows. -/
def books (s : Solver α) : Settings α × OrderedMap (Constraint α) Tag ×
    OrderedMap Variable (VariableEntry α) × OrderedMap Variable (Edit α) :=
  (s.settings, s.constraints, s.unknowns, s.edits)

variable [Scalar α]

theorem books_enter (s : Solver α) (x : Symbol) (q : Row α) : (s.enter x q).books = s.books := by
  rfl

theorem books_pivot (s : Solver α) (leaving entering : Symbol) (r : Row α) :
    (s.pivot leaving entering r).books = s.books := by
  rfl

/-- A property that row work keeps: dropping a row, letting a symbol enter, and
removing the artificial variable. -/
structure RowStable (I : Solver α → Prop) : Prop where
  dropRow : ∀ s x, I s → I (s.dropRow x)
  enter : ∀ s x q, I s → I (s.enter x q)
  dropArtificial : ∀ s x, I s → I (s.dropArtificial x)

variable {I : Solver α → Prop}

theorem RowStable.pivot (h : RowStable I) {s : Solver α} (hs : I s)
    (leaving entering : Symbol) (r : Row α) :
    I ((s.dropRow leaving).pivot leaving entering r) :=
  h.enter _ _ _ (h.dropRow _ _ hs)

theorem RowStable.primalStep (h : RowStable I) {s : Solver α} (hs : I s) (goal : Goal) :
    (primalStep goal s).Keeps I (fun p => I p.1) := by
  unfold Solver.primalStep
  split
  · exact hs
  · split
    · exact hs
    · split
      · exact hs
      · exact h.pivot hs _ _ _

theorem RowStable.optimize (h : RowStable I) {s : Solver α} (hs : I s) (goal : Goal)
    (limit : Nat) : Ensures (s.optimize goal limit) (fun p => I p.1) :=
  ensures_iterate (fun _ hs => h.primalStep hs goal) limit hs

/-- Dual steps keep what row work keeps, if it has nothing to do with infeasible rows. -/
theorem RowStable.dualStep (h : RowStable I)
    (hi : ∀ (s : Solver α) l, I s → I { s with infeasible := l }) {s : Solver α} (hs : I s) :
    (dualStep s).Keeps I (fun p => I p.1) := by
  unfold Solver.dualStep
  split
  · exact hi s [] hs
  · rename_i leaving _
    have hs' := hi s (s.stillInfeasible.filter (· ≠ leaving)) hs
    dsimp only
    split
    · exact hs'
    · split
      · exact hs'
      · exact h.pivot hs' _ _ _

theorem RowStable.dualOptimize (h : RowStable I)
    (hi : ∀ (s : Solver α) l, I s → I { s with infeasible := l }) {s : Solver α} (hs : I s)
    (limit : Nat) : Ensures (s.dualOptimize limit) (fun p => I p.1) :=
  ensures_iterate (fun _ hs => h.dualStep hi hs) limit hs

theorem RowStable.settleProbe (h : RowStable I) {s : Solver α} (hs : I s)
    (artificial : Symbol) (success : Bool) : I (s.settleProbe artificial success).2 := by
  unfold Solver.settleProbe
  split
  · exact h.dropArtificial _ _ hs
  · dsimp only
    split
    · exact h.dropRow _ _ hs
    · split
      · exact h.dropRow _ _ hs
      · exact h.dropArtificial _ _ (h.pivot hs _ _ _)

theorem RowStable.and {J : Solver α → Prop} (h : RowStable I) (h' : RowStable J) :
    RowStable (fun s => I s ∧ J s) where
  dropRow := fun s x hs => ⟨h.dropRow s x hs.1, h'.dropRow s x hs.2⟩
  enter := fun s x q hs => ⟨h.enter s x q hs.1, h'.enter s x q hs.2⟩
  dropArtificial := fun s x hs => ⟨h.dropArtificial s x hs.1, h'.dropArtificial s x hs.2⟩

/-- Row work does not touch the books. -/
theorem rowStable_books (s₀ : Solver α) : RowStable (fun s => s.books = s₀.books) where
  dropRow := fun _ _ h => h
  enter := fun _ _ _ h => h
  dropArtificial := fun _ _ h => h

theorem rowStable_artificial : RowStable (fun s : Solver α => s.artificial = none) where
  dropRow := fun _ _ h => h
  enter := fun s x q h => by
    show s.artificial.map _ = none
    rw [h]
    rfl
  dropArtificial := fun _ _ h => h

/-- Row work keeps what a journal is to bring back. -/
theorem rowStable_recalls (t₀ : Tableau α) :
    RowStable (fun s => s.tableau.Recalls t₀) where
  dropRow := fun _ x h => h.erase x
  enter := fun _ x q h => (h.modifyMentioning x _).insert x q
  dropArtificial := fun _ x h => h.modifyMentioning x _

end Books

section Probing

/-- Undoing a probe brings back what a row was created from. -/
theorem givesBack_undoProbe {s u p : Solver α} (hd : Drafts s u) (ho : u.objective = s.objective)
    (ha : s.artificial = none) (hj : s.tableau.journal = none) (hi : s.infeasible = [])
    (ht : p.tableau.Recalls u.tableau) (hb : p.books = u.books) :
    (p.undoProbe u.objective s.unknowns.size).GivesBack s := by
  have hback : p.tableau.rollback = { u.tableau with faulted := p.tableau.faulted } := by
    rw [ht.rollback_eq, ← hd.tableau.journal_eq.trans hj]
  simp only [books, Prod.mk.injEq] at hb
  obtain ⟨hsettings, hconstraints, hunknowns, hedits⟩ := hb
  have hk : (p.forgetAfter s.unknowns.size).unknowns = s.unknowns := by
    simpa only [forgetAfter, hunknowns] using hd.unknowns_forgetAfter
  refine ⟨u.tableau, hd.tableau, ?_⟩
  simp only [undoProbe, hk, hback, ho]
  cases s
  simp_all [hd.settings, hd.constraints, hd.edits, forgetAfter]

variable [Scalar α]

/-- What a probe leaves behind, whatever it comes to. -/
theorem ensures_probe {I : Solver α → Prop} (h : RowStable I)
    (ha : ∀ s a, I s → I { s with artificial := a }) (limit : Nat) {s : Solver α} {r : Row α}
    (hs : I { (s.newSymbol .slack).2 with
      tableau := (s.newSymbol .slack).2.tableau.insert (s.newSymbol .slack).1 r }) :
    Ensures (probe limit s r) (fun p => I p.1) := by
  unfold probe
  refine Ensures.map ((h.optimize (ha _ (some r) hs) .artificial limit).mono ?_)
  rintro ⟨s', answer⟩ hs'
  cases answer with
  | error why => exact hs'
  | ok u => exact h.settleProbe (ha _ none hs') _ _

/-- A probe keeps the books, and its journal brings back the tableau. -/
theorem ensures_probe_recalls (limit : Nat) (s : Solver α) (r : Row α) :
    Ensures (probe limit { s with tableau := s.tableau.openJournal } r)
      (fun p => p.1.tableau.Recalls s.tableau ∧ p.1.books = s.books) := by
  refine ensures_probe ((rowStable_recalls s.tableau).and (rowStable_books s)) ?_ limit ?_
  · exact fun _ _ h => h
  · exact ⟨((Tableau.recalls_openJournal s.tableau).newSymbol .slack).insert _ r, rfl⟩

end Probing

section Adding

/-- No probe is under way and no row is recorded as infeasible. -/
structure Idle (s : Solver α) : Prop where
  artificial : s.artificial = none
  journal : s.tableau.journal = none
  infeasible : s.infeasible = []

theorem pads_forgetAfter {s u : Solver α} (hd : Drafts s u) (ho : u.objective = s.objective) :
    (u.forgetAfter s.unknowns.size).Pads s := by
  refine ⟨hd.tableau, ?_⟩
  have hk := hd.unknowns_forgetAfter
  cases s
  simp_all [hd.settings, hd.constraints, hd.edits, hd.artificial, hd.infeasible, forgetAfter]

variable [Scalar α]

theorem ensures_reoptimize_ne {ε : Type} {internal : String → ε} {e : ε} (limit : Nat)
    (s : Solver α) (he : ∀ text, internal text ≠ e) :
    Ensures (reoptimize limit internal s) (fun p => p.2 ≠ .error e) := by
  refine ensures_reoptimize (fun p _ => ⟨fun _ h => ?_, fun why _ h => ?_⟩)
  · cases h
  · exact he _ (Except.error.inj h)

/-- Installing succeeds or breaks down. -/
theorem ensures_install_ne {e : AddError} (he : ∀ text, AddError.internal text ≠ e)
    (limit : Nat) (s : Solver α) (c : Constraint α) (tag : Tag) :
    Ensures (install limit s c tag) (fun p => p.2 ≠ .error e) :=
  ensures_reoptimize_ne limit _ he

/-- A required constraint that is rejected leaves the solver as it was, but
for symbols that are used up. -/
theorem ensures_add_givesBack (limit : Nat) {s : Solver α} (hs : s.Idle) {c : Constraint α}
    (hc : c.strength.isRequired = true) :
    Ensures (s.add limit c)
      (fun p => p.2 = .error .unsatisfiableConstraint → p.1.GivesBack s) := by
  have hd := s.drafts_createRow c
  have ho := s.objective_createRow hc
  have hinstall : ∀ (u : Solver α) (tag : Tag), Ensures (install limit u c tag)
      (fun p => p.2 = .error .unsatisfiableConstraint → p.1.GivesBack s) :=
    fun u tag => (ensures_install_ne (fun _ he => by cases he) limit u c tag).mono
      (fun _ hne h => absurd h hne)
  refine ensures_add (fun _ h => ?_) (fun _ _ _ => hinstall _ _) (fun _ _ _ => ?_)
    (fun _ _ _ => hinstall _ _) (fun _ _ _ _ _ => (pads_forgetAfter hd ho).givesBack)
  · cases h
  · refine ensures_installByProbe ((ensures_probe_recalls limit _ _).mono ?_)
    rintro p ⟨ht, hb⟩
    refine ⟨fun _ => hinstall _ _, fun _ _ => ?_, fun why _ h => ?_⟩
    · exact givesBack_undoProbe hd ho hs.artificial hs.journal hs.infeasible ht hb
    · cases h

/-- An addition that is called a duplicate changes nothing. -/
theorem ensures_add_duplicate (limit : Nat) (s : Solver α) (c : Constraint α) :
    Ensures (s.add limit c) (fun p => p.2 = .error .duplicateConstraint → p.1 = s) := by
  have hinstall : ∀ (u : Solver α) (tag : Tag), Ensures (install limit u c tag)
      (fun p => p.2 = .error .duplicateConstraint → p.1 = s) :=
    fun u tag => (ensures_install_ne (fun _ he => by cases he) limit u c tag).mono
      (fun _ hne h => absurd h hne)
  refine ensures_add (fun _ _ => rfl) (fun _ _ _ => hinstall _ _) (fun _ _ _ => ?_)
    (fun _ _ _ => hinstall _ _) (fun _ _ _ _ h => ?_)
  · refine ensures_installByProbe (fun p _ => ⟨fun _ => hinstall _ _, fun _ h => ?_,
      fun why _ h => ?_⟩)
    · cases h
    · cases h
  · cases h

end Adding

end Solver
end Tether
