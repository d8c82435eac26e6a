import Tether.Proofs.Tableau.Counting
import Tether.Scalar.Rational

/-!
# Sequences of changes under a journal

A change makes a symbol, gives a symbol a row, takes its row away, changes its
row, or visits the rows that mention a symbol.  What visits the rows may keep a
state from one row to the next.

A sequence of changes made under a journal is undone exactly by a rollback,
since every change keeps what the journal recalls.  A commit leaves what the
same sequence makes of the tableau without a journal, since no change reads the
journal except to write to it.

A fault of a change stays on the tableau, and neither a rollback nor a commit adds one.
Changes that give rows to symbols with slots only have none.
-/

namespace Tether
namespace Simplex
namespace Tableau

variable {α σ : Type}

section Visiting

/-- Changes one row by a function with a state, which moves on if there is a row. -/
def visitRow (f : σ → Symbol → Row α → σ × Row α) (p : σ × Tableau α) (b : Symbol) :
    σ × Tableau α :=
  (((p.2.row? b).map (fun r => (f p.1 b r).1)).getD p.1,
    p.2.modify b (fun r => (f p.1 b r).2))

/-- Changes every row that mentions a symbol, in ascending order, by a function
that keeps a state from one row to the next. -/
def visitMentioning (t : Tableau α) (s : Symbol) (f : σ → Symbol → Row α → σ × Row α)
    (start : σ) : Tableau α :=
  ((t.mentioning s).foldl (visitRow f) (start, t)).2

/-- What changing a row keeps, visiting the rows that mention a symbol keeps. -/
theorem visitMentioning_induction {motive : Tableau α → Prop} {t : Tableau α} {s : Symbol}
    {f : σ → Symbol → Row α → σ × Row α} {first : σ} (start : motive t)
    (modify : ∀ u b g, motive u → motive (u.modify b g)) :
    motive (t.visitMentioning s f first) :=
  List.foldlRecOn (motive := fun p : σ × Tableau α => motive p.2) (t.mentioning s) (visitRow f)
    start (fun p hp b _ => modify p.2 b _ hp)

/-- Without use of the state, the rows are changed independently. -/
theorem visitMentioning_stateless (t : Tableau α) (s : Symbol) (f : Symbol → Row α → Row α)
    (start : σ) :
    t.visitMentioning s (fun st b r => (st, f b r)) start = t.modifyMentioning s f := by
  unfold visitMentioning modifyMentioning
  generalize t.mentioning s = l
  induction l generalizing t start with
  | nil => rfl
  | cons b rest ih => exact ih (t.modify b (f b)) _

end Visiting

section Changes

/-- A change to a tableau. -/
inductive Change (α σ : Type)
  /-- Makes a symbol. -/
  | newSymbol (kind : SymbolKind)
  /-- Makes a symbol basic with a row. -/
  | insert (s : Symbol) (r : Row α)
  /-- Makes a symbol parametric. -/
  | erase (s : Symbol)
  /-- Changes the row of a symbol, if it has one. -/
  | modify (s : Symbol) (f : Row α → Row α)
  /-- Changes the rows that mention a symbol, from a starting state. -/
  | visit (s : Symbol) (f : σ → Symbol → Row α → σ × Row α) (start : σ)

/-- Makes one change. -/
def change (t : Tableau α) : Change α σ → Tableau α
  | .newSymbol kind => (t.newSymbol kind).2
  | .insert s r => t.insert s r
  | .erase s => t.erase s
  | .modify s f => t.modify s f
  | .visit s f start => t.visitMentioning s f start

/-- Makes changes one after the other. -/
def changeAll (t : Tableau α) (l : List (Change α σ)) : Tableau α :=
  l.foldl change t

end Changes

section Undoing

theorem Recalls.visitMentioning {t t₀ : Tableau α} (h : t.Recalls t₀) (s : Symbol)
    (f : σ → Symbol → Row α → σ × Row α) (start : σ) :
    (t.visitMentioning s f start).Recalls t₀ :=
  visitMentioning_induction (motive := fun u => u.Recalls t₀) h (fun _ b g hu => hu.modify b g)

theorem Recalls.change {t t₀ : Tableau α} (h : t.Recalls t₀) (c : Change α σ) :
    (t.change c).Recalls t₀ := by
  cases c with
  | newSymbol kind => exact h.newSymbol kind
  | insert s r => exact h.insert s r
  | erase s => exact h.erase s
  | modify s f => exact h.modify s f
  | visit s f start => exact h.visitMentioning s f start

theorem Recalls.changeAll {t t₀ : Tableau α} (h : t.Recalls t₀) (l : List (Change α σ)) :
    (t.changeAll l).Recalls t₀ := by
  induction l generalizing t with
  | nil => exact h
  | cons c rest ih => exact ih (h.change c)

end Undoing

section Forgetting

theorem commit_save (t : Tableau α) (id : Nat) : (t.save id).commit = t.commit := by
  simp only [commit, slots_save, basicCount_save, faulted_save]

theorem save_commit (t : Tableau α) (id : Nat) : t.commit.save id = t.commit :=
  rfl

theorem commit_insert (t : Tableau α) (s : Symbol) (r : Row α) :
    (t.insert s r).commit = t.commit.insert s r := by
  simp only [insert, save_commit, isBasic_save, basicCount_save, slots_save, faulted_save,
    symbolCount_save]
  rfl

theorem commit_erase (t : Tableau α) (s : Symbol) :
    (t.erase s).commit = t.commit.erase s := by
  simp only [erase, save_commit, isBasic_save, basicCount_save, slots_save, faulted_save]
  rfl

theorem commit_modify (t : Tableau α) (s : Symbol) (f : Row α → Row α) :
    (t.modify s f).commit = t.commit.modify s f := by
  simp only [modify, save_commit, slots_save]
  exact congrArg (fun u : Tableau α =>
    { u with slots := t.slots.modify s.id (fun slot => { slot with row := slot.row.map f }) })
    (commit_save t s.id)

/-- A visit makes the same of a tableau whose journal is forgotten, row by row
and state by state. -/
theorem commit_visitMentioning (t : Tableau α) (s : Symbol)
    (f : σ → Symbol → Row α → σ × Row α) (start : σ) :
    (t.visitMentioning s f start).commit = t.commit.visitMentioning s f start := by
  unfold visitMentioning
  change _ = ((t.mentioning s).foldl (visitRow f) (start, t.commit)).2
  generalize t.mentioning s = l
  induction l generalizing t start with
  | nil => rfl
  | cons b rest ih =>
      rw [List.foldl_cons, List.foldl_cons, visitRow, ih, commit_modify]
      rfl

theorem commit_change (t : Tableau α) (c : Change α σ) :
    (t.change c).commit = t.commit.change c := by
  cases c with
  | newSymbol kind => rfl
  | insert s r => exact commit_insert t s r
  | erase s => exact commit_erase t s
  | modify s f => exact commit_modify t s f
  | visit s f start => exact commit_visitMentioning t s f start

theorem commit_changeAll (t : Tableau α) (l : List (Change α σ)) :
    (t.changeAll l).commit = t.commit.changeAll l := by
  induction l generalizing t with
  | nil => rfl
  | cons c rest ih => exact (ih (t.change c)).trans (by rw [commit_change]; rfl)

theorem commit_eq_self {t : Tableau α} (h : t.journal = none) : t.commit = t := by
  unfold commit
  rw [← h]

end Forgetting

section Failing

variable {t : Tableau α} {c : Change α σ} {l : List (Change α σ)}

/-- If the change gives a row to a symbol, then the symbol has a slot. -/
def Allots (t : Tableau α) : Change α σ → Prop
  | .insert s _ => s.id < t.symbolCount
  | _ => True

/-- Every change that gives a row to a symbol comes when the symbol has a slot. -/
def AllotsAll (t : Tableau α) : List (Change α σ) → Prop
  | [] => True
  | c :: rest => t.Allots c ∧ (t.change c).AllotsAll rest

instance decidableAllots (t : Tableau α) : (c : Change α σ) → Decidable (t.Allots c)
  | .insert s _ => inferInstanceAs (Decidable (s.id < t.symbolCount))
  | .newSymbol _ | .erase _ | .modify _ _ | .visit _ _ _ => .isTrue trivial

instance decidableAllotsAll (t : Tableau α) : (l : List (Change α σ)) → Decidable (t.AllotsAll l)
  | [] => .isTrue trivial
  | c :: rest =>
      have := decidableAllotsAll (t.change c) rest
      inferInstanceAs (Decidable (t.Allots c ∧ (t.change c).AllotsAll rest))

theorem Intact.change (h : t.Intact) (hc : t.Allots c) : (t.change c).Intact := by
  cases c with
  | newSymbol kind => exact h.of_pads (pads_newSymbol t kind)
  | insert s r => exact h.insert hc r
  | erase s => exact h.erase s
  | modify s f => exact h.modify s f
  | visit s f start => exact visitMentioning_induction h (fun _ b g hu => hu.modify b g)

/-- The mark of a fault stays. -/
theorem faulted_change (h : t.faulted = true) (c : Change α σ) : (t.change c).faulted = true := by
  cases c with
  | newSymbol kind => exact h
  | insert s r => exact (faulted_insert t s r).trans (by rw [h, Bool.true_or])
  | erase s => exact (faulted_erase t s).trans (by rw [h, Bool.true_or])
  | modify s f => exact (faulted_modify t s f).trans h
  | visit s f start =>
      exact visitMentioning_induction (motive := fun u => u.faulted = true) h
        (fun u b g hu => (faulted_modify u b g).trans hu)

theorem faulted_changeAll (h : t.faulted = true) (l : List (Change α σ)) :
    (t.changeAll l).faulted = true :=
  List.foldlRecOn (motive := fun u => u.faulted = true) l change h
    (fun _ hu c _ => faulted_change hu c)

theorem faulted_of_not_allots (h : ¬ t.Allots c) : (t.change c).faulted = true := by
  cases c with
  | insert s r => exact (faulted_insert t s r).trans (by simp [Nat.not_lt.mp h])
  | newSymbol | erase | modify | visit => exact absurd trivial h

/-- A sequence of changes to an intact tableau goes well exactly if it gives rows to
symbols with slots only. -/
theorem Intact.changeAll_iff (h : t.Intact) : (t.changeAll l).Intact ↔ t.AllotsAll l := by
  induction l generalizing t with
  | nil => exact iff_of_true h trivial
  | cons c rest ih =>
      by_cases hc : t.Allots c
      · exact (ih (h.change hc)).trans (and_iff_right hc).symm
      · refine iff_of_false (fun hi => ?_) (fun hall => hc hall.1)
        have hmark := faulted_changeAll (faulted_of_not_allots hc) rest
        exact Bool.noConfusion (hmark.symm.trans hi.faultless)

end Failing

section Exactness

/-- Whatever is done to a tableau under a journal, in whatever order and however
often: a rollback gives the tableau back, with every kind, row and count and no
journal, and fails nowhere that the changes did not, and a commit leaves what the same
changes make of it without a journal.  If the tableau was intact and rows are given to
symbols with slots only, then nothing fails at all. -/
theorem journal_is_exact (t : Tableau α) (h : t.journal = none) (l : List (Change α σ)) :
    (t.openJournal.changeAll l).rollback = { t with faulted := (t.changeAll l).faulted } ∧
      (t.openJournal.changeAll l).commit = t.changeAll l ∧
      (t.Intact → t.AllotsAll l →
        (t.openJournal.changeAll l).rollback = t ∧ (t.changeAll l).Intact) := by
  have hcommit : (t.openJournal.changeAll l).commit = t.changeAll l := by
    rw [commit_changeAll]
    exact congrArg (fun u : Tableau α => u.changeAll l) (commit_eq_self h)
  have hback : (t.openJournal.changeAll l).rollback =
      { t with faulted := (t.changeAll l).faulted } := by
    rw [((recalls_openJournal t).changeAll l).rollback_eq, ← hcommit, ← h]
    rfl
  refine ⟨hback, hcommit, fun ht hl => ?_⟩
  have hafter := ht.changeAll_iff.mpr hl
  rw [hback, hafter.faultless, ← ht.faultless]
  exact ⟨rfl, hafter⟩

/-- An external symbol whose row is 1 plus a slack symbol, and another one whose
row is 4. -/
def slackened : Tableau Rat :=
  changeAll (σ := Unit) empty
    [.newSymbol .external, .newSymbol .slack, .newSymbol .external,
      .insert ⟨0, .external⟩ ⟨1, [(⟨1, .slack⟩, 1)]⟩, .insert ⟨2, .external⟩ ⟨4, []⟩]

/-- Puts 2 plus a new error symbol in for the slack symbol and counts the rows
that mention it, then fills, empties and refills slots. -/
def upheaval : List (Change Rat Nat) :=
  [.newSymbol .error,
    .visit ⟨1, .slack⟩
      (fun n _ r => (n + 1, (r.substitute ⟨1, .slack⟩ ⟨2, [(⟨3, .error⟩, 1)]⟩).shift n)) 0,
    .insert ⟨3, .error⟩ ⟨0, []⟩, .erase ⟨2, .external⟩, .modify ⟨0, .external⟩ Row.negate,
    .insert ⟨2, .external⟩ ⟨7, []⟩, .erase ⟨0, .external⟩]

/-- The rows, slots and counts differ after the upheaval, and yet a rollback gives
everything back, without a fault. -/
theorem upheaval_is_undone :
    (slackened.changeAll upheaval).symbolCount = 4 ∧
      (slackened.changeAll upheaval).isBasic ⟨0, .external⟩ = false ∧
      (slackened.openJournal.changeAll upheaval).rollback = slackened ∧
      (slackened.openJournal.changeAll upheaval).commit = slackened.changeAll upheaval ∧
      (slackened.changeAll upheaval).Intact := by
  obtain ⟨-, hcommit, hsafe⟩ := journal_is_exact slackened rfl upheaval
  have hintact : slackened.Intact := intact_empty.changeAll_iff.mpr (by decide)
  obtain ⟨hback, hafter⟩ := hsafe hintact (by decide)
  exact ⟨by decide, by decide, hback, hcommit, hafter⟩

end Exactness

end Tableau
end Simplex
end Tether
