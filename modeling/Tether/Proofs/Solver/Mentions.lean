import Tether.Proofs.Solver.Intact

/-!
# No symbol dangles

A rejected addition takes symbols back, and the next ones are made with the same
numbers, perhaps of other kinds.  A symbol left behind anywhere would then stand for
something else.

* `Mentions`: everywhere a solver may hold a symbol: in its rows, as the owner of a
  row, in the objectives, the tags, the edit variables, the variables and the list of
  infeasible rows.
* `Secure`: whatever is mentioned has a slot, and the slot is of its kind; the
  symbols of variables and tags are all different; the count of basic symbols is right,
  no operation on the tableau has failed, and no journal is open.

Every run ends in a secure solver, whatever the answers were: a probe closes its
journal in each of the ways in which it may end, and the ledger and the intact tableau
say the rest.  A call that gives no answer ends in no solver; what its loops visit
mentions symbols with slots only, and nothing has failed there either.
-/

namespace Tether
namespace Solver

open Simplex

variable {α : Type} [Scalar α] {s : Solver α} {limit : Nat}

section Journals

variable {I : Solver α → Prop}

theorem journal_reoptimize {ε : Type} (h : s.tableau.journal = none) (limit : Nat)
    (internal : String → ε) :
    Ensures (reoptimize limit internal s) (fun p => p.1.tableau.journal = none) :=
  ensures_reoptimize ((rowStable_journal.optimize h .primary limit).mono
    (fun _ hp => ⟨fun _ => hp, fun _ _ => hp⟩))

theorem journal_install (h : s.tableau.journal = none) (limit : Nat) (c : Constraint α)
    (tag : Tag) : Ensures (install limit s c tag) (fun p => p.1.tableau.journal = none) :=
  journal_reoptimize (s := { s.retainVariables c with
    constraints := s.constraints.insert c tag }) h limit _

/-- However a probe ends, its journal is closed. -/
theorem journal_installByProbe (s : Solver α) (limit known : Nat) (c : Constraint α) (r : Row α)
    (tag : Tag) :
    Ensures (installByProbe limit s known c r tag) (fun p => p.1.tableau.journal = none) :=
  ensures_installByProbe (fun p _ => ⟨fun _ => journal_install (s := p.1.keepProbe) rfl limit c tag,
    fun _ => Tableau.journal_rollback _, fun _ _ => rfl⟩)

/-- Between calls no journal is open, also after a call that breaks down. -/
theorem callStable_journal (limit : Nat) :
    CallStable limit False (fun s : Solver α => s.tableau.journal = none) where
  add := fun {s} _ h c => by
    have hu : (s.createRow c).2.2.tableau.journal = none :=
      (s.drafts_createRow c).tableau.journal_eq.trans h
    refine Ensures.mono ?_ (fun _ hp _ => hp)
    exact ensures_add (fun _ => h)
      (fun _ x _ => journal_install (rowStable_journal.enter _ x _ hu) limit c _)
      (fun _ _ _ => journal_installByProbe _ limit _ c _ _)
      (fun _ _ _ => journal_install (rowStable_journal.enter _ _ _ hu) limit c _)
      (fun _ _ _ _ => hu)
  remove := fun {s} _ h c => by
    refine (ensures_remove (fun _ => h) (fun e _ => ?_)).mono (fun _ hp _ => hp)
    exact journal_reoptimize (removalStable_journal.uninstall
      (s := { s with constraints := s.constraints.erase c }) h e.1 e.2) limit _
  suggest := fun {s} _ h v x => by
    refine (ensures_suggest (fun _ => h) (fun _ _ _ => h) (fun edit _ => ?_)).mono
      (fun _ hp _ => hp)
    refine rowStable_journal.dualOptimize (fun _ _ h => h) (journal_shiftEdit ?_ _ _) limit
    exact h
  withEdits := fun _ h => h
  reset := fun _ => rfl

end Journals

section Mentioning

/-- A solver holds a symbol somewhere. -/
inductive Mentions (s : Solver α) : Symbol → Prop
  /-- In a row. -/
  | row {x : Symbol} {id : Nat} {r : Row α} (hr : s.tableau.rowAt? id = some r)
      (hx : x ∈ r.symbols) : Mentions s x
  /-- As the owner of a row. -/
  | basic {b : Symbol × Row α} (hb : b ∈ s.tableau.basics) : Mentions s b.1
  /-- In the objective. -/
  | objective {x : Symbol} (hx : x ∈ s.objective.symbols) : Mentions s x
  /-- In the objective of a probe. -/
  | artificial {x : Symbol} {r : Row α} (hr : r ∈ s.artificial) (hx : x ∈ r.symbols) :
      Mentions s x
  /-- In the tag of an installed constraint. -/
  | tag {x : Symbol} {e : Constraint α × Tag} (he : e ∈ s.constraints.entries)
      (hx : x ∈ e.2.symbols) : Mentions s x
  /-- In the tag that an edit variable is held by. -/
  | edit {x : Symbol} {e : Variable × Edit α} (he : e ∈ s.edits.entries)
      (hx : x ∈ e.2.tag.symbols) : Mentions s x
  /-- As the symbol of a variable. -/
  | unknown {e : Variable × VariableEntry α} (he : e ∈ s.unknowns.entries) : Mentions s e.2.symbol
  /-- As an infeasible row. -/
  | infeasible {x : Symbol} (hx : x ∈ s.infeasible) : Mentions s x

/-- Every symbol that a solver holds has a slot of its kind, no two of its variables and
tags share one, the basic symbols are counted, nothing has failed, and no journal is
open. -/
structure Secure (s : Solver α) : Prop where
  /-- A number has a kind exactly if it is below the number of symbols. -/
  kinds : ∀ id, (s.tableau.kindAt? id).isSome = true ↔ id < s.tableau.symbolCount
  /-- So does a number that has a row. -/
  rows : ∀ id, (s.tableau.rowAt? id).isSome = true → id < s.tableau.symbolCount
  /-- What is held has a slot, and of its kind. -/
  known : ∀ x, s.Mentions x →
    x.id < s.tableau.symbolCount ∧ s.tableau.kindAt? x.id = some x.kind
  /-- The symbols of variables are unrestricted. -/
  external : ∀ e ∈ s.unknowns.entries, e.2.symbol.kind = .external
  /-- The symbols of a tag are of the kinds that its constraint asks for. -/
  fits : ∀ e ∈ s.constraints.entries, e.2.Fits e.1
  /-- The numbers of variables and of tags are all different. -/
  distinct : ((s.unknowns.entries.map (·.2.symbol) ++
    s.constraints.entries.flatMap (·.2.symbols)).map (·.id)).Nodup
  /-- The count of basic symbols is the number of slots with a row. -/
  counted : s.tableau.basicCount = s.tableau.slots.toList.countP (·.row.isSome)
  /-- While there is a row to take out, the count is not zero. -/
  positive : ∀ x, s.tableau.isBasic x = true → 0 < s.tableau.basicCount
  /-- No operation, be it a rollback, has asked for a slot that does not exist, and none
  has lowered a count of zero. -/
  faultless : s.tableau.faulted = false
  /-- No journal is open. -/
  closed : s.tableau.journal = none

end Mentioning

section Books

omit [Scalar α] in
/-- Known symbols of one number are one symbol. -/
theorem nodup_map_id {t : Tableau α} {l : List Symbol} (hl : l.Nodup) (hk : ∀ x ∈ l, t.Knows x) :
    (l.map (·.id)).Nodup :=
  List.Nodup.map_on (fun x hx y hy h => (hk x hx).eq_of_id_eq (hk y hy) h) hl

omit [Scalar α] in
/-- The rows are the slots that hold one. -/
theorem length_basics_eq_countP (t : Tableau α) :
    t.basics.length = t.slots.toList.countP (·.row.isSome) := by
  have h : ∀ (l : List (Slot α)) (n : Nat),
      ((l.zipIdx n).filterMap (fun entry : Slot α × Nat =>
        entry.1.row.map (fun r => ((⟨entry.2, entry.1.kind⟩ : Symbol), r)))).length =
          l.countP (·.row.isSome) := by
    intro l
    induction l with
    | nil => simp
    | cons slot rest ih =>
        intro n
        rw [List.zipIdx_cons, List.filterMap_cons, List.countP_cons]
        cases hrow : slot.row <;> simp [ih]
  exact h t.slots.toList 0

/-- What a solver in order mentions, it knows. -/
theorem Ledger.knows_of_mentions (h : s.Ledger) {x : Symbol} (hx : s.Mentions x) :
    s.tableau.Knows x := by
  cases hx with
  | row hr hx => exact ((h.proper.rows _ _ hr).parametric _ hx).1
  | basic hb => exact (Tableau.mem_basics_iff.mp hb).1
  | objective hx => exact (h.proper.objective.parametric _ hx).1
  | artificial hr hx => exact ((h.proper.artificial _ hr).parametric _ hx).1
  | tag he hx => exact h.tagged.knows _ he _ hx
  | edit he hx => exact h.tagged.knows _ (h.held.installed _ he) _ hx
  | unknown he => exact (h.counted.symbols _ he).1
  | infeasible hx => exact h.proper.infeasible _ hx

theorem Ledger.known_of_mentions (h : s.Ledger) {x : Symbol} (hx : s.Mentions x) :
    x.id < s.tableau.symbolCount ∧ s.tableau.kindAt? x.id = some x.kind :=
  ⟨(h.knows_of_mentions hx).id_lt, h.knows_of_mentions hx⟩

/-- The symbols of tags are restricted or dummies, those of variables neither. -/
theorem Ledger.kind_ne_external (h : s.Ledger) {e : Constraint α × Tag}
    (he : e ∈ s.constraints.entries) {x : Symbol} (hx : x ∈ e.2.symbols) :
    x.kind ≠ .external := by
  obtain ⟨hmarker, hother⟩ := h.tagged.fits e he
  rcases List.mem_cons.mp hx with rfl | hx
  · rw [hmarker]
    unfold Constraint.markerKind
    split
    · split <;> decide
    · decide
  · rw [Option.mem_toList] at hx
    rw [hx, Option.map_some] at hother
    split at hother
    · cases hother
    · rw [Option.some.inj hother]
      decide

theorem Ledger.nodup_symbols (h : s.Ledger) :
    (s.unknowns.entries.map (·.2.symbol) ++
      s.constraints.entries.flatMap (·.2.symbols)).Nodup := by
  refine List.nodup_append'.mpr ⟨h.counted.distinct, h.tagged.disjoint, ?_⟩
  intro x hx hx'
  obtain ⟨e, he, rfl⟩ := List.mem_map.mp hx
  obtain ⟨d, hd, hx'⟩ := List.mem_flatMap.mp hx'
  exact h.kind_ne_external hd hx' (h.counted.symbols e he).2

theorem Ledger.secure (h : s.Ledger) (ht : s.tableau.Intact) (hj : s.tableau.journal = none) :
    s.Secure where
  kinds id := by
    rw [← Option.ne_none_iff_isSome, ne_eq, Tableau.kindAt?_eq_none_iff, Nat.not_le]
  rows id hid := by
    obtain ⟨r, hr⟩ := Option.isSome_iff_exists.mp hid
    exact Tableau.lt_of_rowAt? hr
  known x hx := h.known_of_mentions hx
  external e he := (h.counted.symbols e he).2
  fits := h.tagged.fits
  distinct := by
    refine nodup_map_id (t := s.tableau) h.nodup_symbols (fun x hx => ?_)
    rcases List.mem_append.mp hx with hx | hx
    · obtain ⟨e, he, rfl⟩ := List.mem_map.mp hx
      exact h.knows_of_mentions (.unknown he)
    · obtain ⟨e, he, hx⟩ := List.mem_flatMap.mp hx
      exact h.knows_of_mentions (.tag he hx)
  counted := ht.tallied.trans (length_basics_eq_countP s.tableau)
  positive _ hx := ht.tallied.pos hx
  faultless := ht.faultless
  closed := hj

end Books

section Runs

/-- The books and the tableau stay in order through the members of a list of calls. -/
theorem Ledger.exists_starts (hs : s.Ledger) (ht : s.tableau.Intact) {call : SolverCall α}
    {loop : Loop} {start : Solver α} (h : Undertakes s call loop start) :
    ∃ u call', (u.Ledger ∧ u.tableau.Intact) ∧ Starts u call' loop start := by
  refine h.exists_starts (I := fun u => u.Ledger ∧ u.tableau.Intact) ⟨hs, ht⟩ ?_ ?_
  · rintro cs - u ⟨hl, hi⟩ c - limit w hw
    exact ⟨(hl.add limit c _ hw).1, hl.intact_add hi limit c _ hw⟩
  · rintro u ⟨hl, hi⟩ c limit w hw
    exact ⟨(hl.remove limit c _ hw).1, hl.intact_remove hi limit c _ hw⟩

/-- After every run, whatever the answers were and whatever the arithmetic does, every
symbol that the solver holds is one of its own, no two of them are confused, the basic
symbols are counted, nothing has failed and no journal is open.  In whatever state a loop
of the next call comes to, be the call answered or not, nothing has failed, and every symbol
that is held has a slot of its kind. -/
theorem symbols_secure (settings : Settings α) (limit : Nat)
    {calls : List (SolverCall α)} {answers : List (SolverAnswer α)}
    (hrun : (empty settings).run limit calls = .ok (s, answers)) :
    s.Secure ∧ ∀ call loop start t, s.Undertakes call loop start → Visits loop.step start t →
      t.tableau.faulted = false ∧
        ∀ x, t.Mentions x → x.id < t.tableau.symbolCount ∧ t.tableau.kindAt? x.id = some x.kind := by
  have hledger : s.Ledger := ledger_run settings limit calls _ hrun
  have hintact : s.tableau.Intact := intact_run settings limit calls _ hrun
  have hjournal : s.tableau.journal = none :=
    (callStable_journal limit).run (ledger_empty settings) (I := fun s => s.tableau.journal = none)
      rfl (fun h => h) calls _ hrun (fun hstrict => hstrict.elim)
  refine ⟨hledger.secure hintact hjournal, fun call loop start t hcall hvisits => ?_⟩
  obtain ⟨u, call', ⟨hl, hi⟩, hstarts⟩ := hledger.exists_starts hintact hcall
  have hstart : start.Ledger := hl.starts hstarts
  exact ⟨(hstart.proper.intact_visits (hl.intact_starts hi hstarts) hvisits).faultless,
    fun _ hx => (hstart.visits hvisits).known_of_mentions hx⟩

/-- A probe that is undone takes a symbol back, a preference reuses its number for
another one, and a last call breaks down.  Nothing has failed then, nor where the loop of
a removal starts. -/
theorem symbols_secure_after_rejection :
    ∃ (s start : Solver Rat) (answers : List (SolverAnswer Rat)) (floor : Constraint Rat),
      floor = ⟨"floor", ⟨[.symbolic ⟨.entity ⟨0⟩, .width⟩ 1], -10⟩, .greaterOrEqual, .required⟩ ∧
      (empty .standard).run 9 [
        .add floor,
        .add ⟨"total", ⟨[.symbolic ⟨.entity ⟨0⟩, .width⟩ 1, .symbolic ⟨.entity ⟨1⟩, .width⟩ 1],
          -20⟩, .lessOrEqual, .required⟩,
        .add ⟨"far", ⟨[.symbolic ⟨.entity ⟨1⟩, .width⟩ 1], -15⟩, .greaterOrEqual, .required⟩,
        .add ⟨"wish", ⟨[.symbolic ⟨.entity ⟨1⟩, .width⟩ 1], -12⟩, .equalTo, .weak⟩,
        .add ⟨"odd", ⟨[.symbolic ⟨.entity ⟨2⟩, .width⟩ 1], 0⟩, .equalTo, ⟨-1⟩⟩] =
          .ok (s, answers) ∧
      answers.map (·.isInternal) = [false, false, false, false, true] ∧
      s.constraints.values.map (fun tag => tag.symbols.map (·.id)) =
        [[1], [3], [5, 6], [8, 9]] ∧ s.Secure ∧
      s.Undertakes (.remove floor) (.primal .primary) start ∧ start.tableau.faulted = false := by
  have hchain : ((empty .standard : Solver Rat).run 9 [
      .add ⟨"floor", ⟨[.symbolic ⟨.entity ⟨0⟩, .width⟩ 1], -10⟩, .greaterOrEqual, .required⟩,
      .add ⟨"total", ⟨[.symbolic ⟨.entity ⟨0⟩, .width⟩ 1, .symbolic ⟨.entity ⟨1⟩, .width⟩ 1],
        -20⟩, .lessOrEqual, .required⟩,
      .add ⟨"far", ⟨[.symbolic ⟨.entity ⟨1⟩, .width⟩ 1], -15⟩, .greaterOrEqual, .required⟩,
      .add ⟨"wish", ⟨[.symbolic ⟨.entity ⟨1⟩, .width⟩ 1], -12⟩, .equalTo, .weak⟩,
      .add ⟨"odd", ⟨[.symbolic ⟨.entity ⟨2⟩, .width⟩ 1], 0⟩, .equalTo, ⟨-1⟩⟩]).toOption.any
        (fun p => decide (p.2.map (·.isInternal) = [false, false, false, false, true]) &&
          (decide (p.1.constraints.values.map (fun tag => tag.symbols.map (·.id)) =
            [[1], [3], [5, 6], [8, 9]]) &&
          (p.1.constraints.find? ⟨"floor", ⟨[.symbolic ⟨.entity ⟨0⟩, .width⟩ 1], -10⟩,
            .greaterOrEqual, .required⟩).isSome)) = true := by
    decide +kernel
  obtain ⟨⟨s, answers⟩, hrun, hrest⟩ := exists_ok_of_any hchain
  obtain ⟨hanswers, hrest⟩ := Bool.and_eq_true_iff.mp hrest
  obtain ⟨htags, hfloor⟩ := Bool.and_eq_true_iff.mp hrest
  obtain ⟨e, hf⟩ := Option.isSome_iff_exists.mp hfloor
  obtain ⟨hsecure, hloops⟩ := symbols_secure .standard 9 hrun
  have hcall := Undertakes.single (.remove hf)
  exact ⟨s, _, answers, _, rfl, hrun, of_decide_eq_true hanswers, of_decide_eq_true htags,
    hsecure, hcall, (hloops _ _ _ _ hcall (.here _)).1⟩

end Runs

end Solver
end Tether
