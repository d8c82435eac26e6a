import Tether.Proofs.Solver.LedgerInsertion

/-!
# Removal keeps the books

Removing a constraint keeps the ledger in order: its weights, its marker and
the symbol beside it leave the rows, the edit variable that it held ends, and
its references are taken back one by one.
-/

namespace Tether
namespace Solver

open Simplex

variable {α : Type} {s u : Solver α}

section Reworking

/-- Only rows have been worked on, and they are still in solved form. -/
structure Reworked (s u : Solver α) : Prop where
  proper : u.Proper
  books : u.books = s.books
  knows : ∀ x, s.tableau.Knows x → u.tableau.Knows x

theorem Reworked.trans {v : Solver α} (h : Reworked s u) (h' : Reworked u v) : Reworked s v :=
  ⟨h'.proper, h'.books.trans h.books, fun x hx => h'.knows x (h.knows x hx)⟩

theorem Proper.reworked_dropRow (h : s.Proper) (x : Symbol) : Reworked s (s.dropRow x) :=
  ⟨h.dropRow x, rfl, fun _ hy => knows_dropRow.mpr hy⟩

end Reworking

variable [Scalar α]

section Rows

theorem Proper.reworked_removeWeight (h : s.Proper) {x : Symbol} (hx : s.tableau.Knows x)
    (strength : α) : Reworked s (removeWeight strength s x) := by
  unfold removeWeight
  split
  · exact ⟨h, rfl, fun _ hy => hy⟩
  · split
    · rename_i r hr
      exact ⟨⟨h.rows, h.objective.addRow (h.rows _ r hr) _, h.artificial, h.infeasible⟩, rfl,
        fun _ hy => hy⟩
    · rename_i hr
      exact ⟨h.addObjective ⟨hx, hr⟩ _, rfl, fun _ hy => hy⟩

theorem Proper.reworked_removeWeights (h : s.Proper) (c : Constraint α) {tag : Tag}
    (ht : ∀ x ∈ tag.symbols, s.tableau.Knows x) : Reworked s (s.removeWeights c tag) := by
  unfold removeWeights
  generalize tag.symbols = l at ht
  induction l generalizing s with
  | nil => exact ⟨h, rfl, fun _ hy => hy⟩
  | cons x rest ih =>
      have hx := h.reworked_removeWeight (ht x (by simp)) c.strength.value
      exact hx.trans (ih hx.proper (fun y hy => hx.knows y (ht y (List.mem_cons_of_mem x hy))))

theorem mem_rowsOf_of_markerLeaving? {t : Tableau α} {marker x : Symbol}
    (h : markerLeaving? t marker = some x) : ∃ r, (x, r) ∈ rowsOf t marker := by
  have hfirst : ∀ kind : Symbol → Bool,
      (((rowsOf t marker).find? (fun b => kind b.1)).map (·.1)) = some x →
        ∃ r, (x, r) ∈ rowsOf t marker := by
    intro kind hk
    obtain ⟨b, hb, rfl⟩ := Option.map_eq_some_iff.mp hk
    exact ⟨b.2, List.mem_of_find?_eq_some hb⟩
  have hleast : ∀ f : Symbol × Row α → Option (Cell α),
      (∀ b c, f b = some c → c.1 = b.1) →
      least? Scalar.bounded ((rowsOf t marker).filterMap f) = some x →
        ∃ r, (x, r) ∈ rowsOf t marker := by
    intro f hf hx
    obtain ⟨v, hv⟩ := exists_mem_of_least? _ hx
    obtain ⟨b, hb, he⟩ := List.mem_filterMap.mp hv
    obtain rfl : x = b.1 := hf b _ he
    exact ⟨b.2, hb⟩
  unfold markerLeaving? at h
  dsimp only at h
  rcases Option.or_eq_some_iff.mp h with h | ⟨-, h⟩
  · exact hfirst _ h
  · rcases Option.or_eq_some_iff.mp h with h | ⟨-, h⟩
    · refine hleast _ ?_ h
      intro b c hc
      dsimp only at hc
      split at hc
      · cases hc; rfl
      · cases hc
    · rcases Option.or_eq_some_iff.mp h with h | ⟨-, h⟩
      · refine hleast _ ?_ h
        intro b c hc
        dsimp only at hc
        split at hc
        · cases hc; rfl
        · cases hc
      · exact hfirst _ h

theorem knows_of_markerLeaving? {t : Tableau α} {marker x : Symbol}
    (h : markerLeaving? t marker = some x) : t.Knows x := by
  obtain ⟨r, hr⟩ := mem_rowsOf_of_markerLeaving? h
  exact (Tableau.mem_basics_iff.mp (List.mem_of_mem_filter hr)).1

theorem Proper.reworked_removeMarker (h : s.Proper) (marker : Symbol) :
    Reworked s (s.removeMarker marker) := by
  unfold removeMarker
  split
  · exact h.reworked_dropRow marker
  · split
    · exact ⟨h, rfl, fun _ hy => hy⟩
    · rename_i leaving r hrow
      obtain ⟨hl, hr⟩ := withRow_eq_some_iff.mp hrow
      refine (h.reworked_dropRow leaving).trans ⟨?_, rfl, fun _ hy => knows_substitute.mpr hy⟩
      exact (h.dropRow leaving).substitute marker
        (h.admits_exchange (knows_of_markerLeaving? hl) hr)

end Rows

section References

variable {demand : Variable → Nat}

theorem counted_release {t : Term α}
    (h : Counted s.tableau s.unknowns (fun v => demand v + if t.refersTo v then 1 else 0)) :
    Counted s.tableau (countReference (· - 1) s.unknowns t) demand := by
  refine h.countReference ?_ ?_ ?_
  · intro hz
    simp [Term.refersTo_unknown hz]
  · intro v hv
    simp [Term.refersTo_of_ne hv]
  · intro hz
    refine h.demanded _ ?_
    simp [Term.refersTo_unknown hz]

/-- Taking back the reference of a term keeps the count of the others. -/
theorem Proper.releaseVariable (hp : s.Proper) (t : Term α)
    (h : Counted s.tableau s.unknowns (fun v => demand v + if t.refersTo v then 1 else 0)) :
    (s.releaseVariable t).Proper ∧
      Counted (s.releaseVariable t).tableau (s.releaseVariable t).unknowns demand ∧
      (∀ x, s.tableau.Knows x → (s.releaseVariable t).tableau.Knows x) := by
  have hc := counted_release h
  rcases releaseVariable_cases s t with hs | ⟨entry, hget, hz, hs⟩
  · rw [hs]
    exact ⟨hp.of_rows rfl rfl rfl rfl, hc, fun _ hx => hx⟩
  · obtain ⟨v, hm, hv⟩ := OrderedMap.mem_of_get? hget
    rw [beq_iff_eq.mp hv] at hm
    have hd : demand t.unknown = 0 := (hc.references _ hm).symm.trans hz
    rw [hs]
    refine ⟨(hp.dropRow entry.symbol).of_rows rfl rfl rfl rfl, ?_, fun _ hx => knows_dropRow.mpr hx⟩
    exact (hc.erase hd).mono (fun _ hx => knows_dropRow.mpr hx)

theorem books_releaseVariable (s : Solver α) (t : Term α) :
    (s.releaseVariable t).settings = s.settings ∧
      (s.releaseVariable t).constraints = s.constraints ∧
      (s.releaseVariable t).edits = s.edits := by
  rcases releaseVariable_cases s t with hs | ⟨entry, -, -, hs⟩
  · rw [hs]
    exact ⟨rfl, rfl, rfl⟩
  · rw [hs]
    exact ⟨rfl, rfl, rfl⟩

/-- What is left of a ledger while the references of terms are taken back. -/
structure Releasing (s : Solver α) (terms : List (Term α)) : Prop where
  proper : s.Proper
  tagged : Tagged s.tableau s.constraints.entries
  counted : Counted s.tableau s.unknowns (fun v => s.uses v + terms.countP (·.refersTo v))
  held : Held s.edits s.constraints.entries

theorem uses_releaseVariable (s : Solver α) (t : Term α) :
    (s.releaseVariable t).uses = s.uses := by
  funext v
  simp only [uses, (books_releaseVariable s t).2.1]

theorem Releasing.counted_cons {t : Term α} {rest : List (Term α)}
    (h : Releasing s (t :: rest)) : Counted s.tableau s.unknowns
      (fun v => s.uses v + rest.countP (·.refersTo v) + if t.refersTo v then 1 else 0) := by
  convert h.counted using 2
  rw [List.countP_cons]
  omega

/-- A variable whose last reference is taken back is in no installed constraint. -/
theorem Releasing.uses_eq_zero {t : Term α} {rest : List (Term α)} (h : Releasing s (t :: rest))
    {entry : VariableEntry α}
    (hget : (countReference (· - 1) s.unknowns t).get? t.unknown = some entry)
    (hz : entry.references = 0) : s.uses t.unknown = 0 := by
  have hc := counted_release h.counted_cons
  have hdemand := (hc.references _ ((OrderedMap.get?_eq_some_iff hc.keys).mp hget)).symm.trans hz
  dsimp only at hdemand
  omega

/-- Taking back one reference leaves the others to be taken back. -/
theorem Releasing.releaseVariable {t : Term α} {rest : List (Term α)}
    (h : Releasing s (t :: rest)) : Releasing (s.releaseVariable t) rest := by
  obtain ⟨-, hconstraints, hedits⟩ := books_releaseVariable s t
  have huses := uses_releaseVariable s t
  obtain ⟨hp, hc, hk⟩ := h.proper.releaseVariable t h.counted_cons
  exact ⟨hp, hconstraints ▸ h.tagged.mono hk, huses ▸ hc, hconstraints ▸ hedits ▸ h.held⟩

/-- Taking back the references of some terms leaves those of the others to be taken
back. -/
theorem Releasing.foldl_releaseVariable {before rest : List (Term α)}
    (h : Releasing s (before ++ rest)) :
    Releasing (before.foldl Solver.releaseVariable s) rest ∧
      (before.foldl Solver.releaseVariable s).settings = s.settings ∧
      (before.foldl Solver.releaseVariable s).constraints = s.constraints ∧
      (before.foldl Solver.releaseVariable s).edits = s.edits := by
  induction before generalizing s with
  | nil => exact ⟨h, rfl, rfl, rfl⟩
  | cons t before ih =>
      obtain ⟨hsettings, hconstraints, hedits⟩ := books_releaseVariable s t
      obtain ⟨hr, h₁, h₂, h₃⟩ := ih h.releaseVariable
      exact ⟨hr, h₁.trans hsettings, h₂.trans hconstraints, h₃.trans hedits⟩

/-- When no references are left to be taken back, the ledger is in order. -/
theorem Releasing.ledger (h : Releasing s []) : s.Ledger :=
  ⟨h.proper, h.tagged, h.counted, h.held⟩

theorem Releasing.releaseVariables {c : Constraint α} (h : Releasing s c.expression.terms) :
    (s.releaseVariables c).Ledger ∧ (s.releaseVariables c).settings = s.settings ∧
      (s.releaseVariables c).constraints = s.constraints ∧
      (s.releaseVariables c).edits = s.edits := by
  rw [← List.append_nil c.expression.terms] at h
  obtain ⟨hr, hbooks⟩ := h.foldl_releaseVariable
  exact ⟨hr.ledger, hbooks⟩

end References

section Removing

/-- Takes the equation and the weights of a constraint out of the rows. -/
def takeOut (s : Solver α) (c : Constraint α) (tag : Tag) : Solver α :=
  let s := (s.removeWeights c tag).removeMarker tag.marker
  tag.other.elim s s.dropRow

/-- Takes a constraint out of the rows and of the edit variables.  Its references are
still to be taken back. -/
def detach (s : Solver α) (c : Constraint α) (tag : Tag) : Solver α :=
  { s.takeOut c tag with
    edits := (s.takeOut c tag).edits.filter (fun _ edit => !(edit.constraint == c)) }

theorem Proper.reworked_takeOut (h : s.Proper) (c : Constraint α) {tag : Tag}
    (ht : ∀ x ∈ tag.symbols, s.tableau.Knows x) : Reworked s (s.takeOut c tag) := by
  have hw := h.reworked_removeWeights c ht
  have hm := hw.trans (hw.proper.reworked_removeMarker tag.marker)
  unfold takeOut
  cases tag.other with
  | none => exact hm
  | some x => exact hm.trans (hm.proper.reworked_dropRow x)

/-- Whatever rows are worked on, a constraint that is off the list can be taken
out of the edit variables and the references. -/
theorem Ledger.delist (h : s.Ledger) {c installed : Constraint α} {tag : Tag}
    (hf : s.constraints.find? c = some (installed, tag))
    (hr : Reworked { s with constraints := s.constraints.erase c } u) :
    Releasing { u with edits := u.edits.filter (fun _ edit => !(edit.constraint == installed)) }
      installed.expression.terms := by
  have hb := hr.books
  simp only [books, Prod.mk.injEq] at hb
  obtain ⟨-, hconstraints, hunknowns, hedits⟩ := hb
  obtain ⟨before, after, he, herase⟩ := OrderedMap.exists_append_of_find? hf
  have hlist : u.constraints.entries = before ++ after := hconstraints ▸ herase
  have hsub : u.constraints.entries.Sublist s.constraints.entries := by
    rw [hlist, he]
    exact (List.sublist_cons_self _ _).append_left before
  refine ⟨hr.proper.of_rows rfl rfl rfl rfl,
    (h.tagged.sublist hsub).mono hr.knows, ?_, ?_⟩
  · have huses : (fun v => Solver.uses { u with
        edits := u.edits.filter (fun _ edit => !(edit.constraint == installed)) } v +
          installed.expression.terms.countP (·.refersTo v)) = s.uses := by
      funext v
      simp only [uses, OrderedMap.keys, hlist, he, List.map_append, List.flatMap_append,
        List.map_cons, List.flatMap_cons, List.countP_append]
      omega
    rw [huses]
    exact hunknowns ▸ h.counted.mono hr.knows
  · rw [hedits]
    refine h.held.filter (fun e hm hne => ?_)
    rw [hlist]
    rw [he] at hm
    rcases List.mem_append.mp hm with hm | hm
    · exact List.mem_append_left _ hm
    · rcases List.mem_cons.mp hm with rfl | hm
      · have := Constraint.beq_iff.mpr (rfl : installed.content = installed.content)
        rw [this] at hne
        cases hne
      · exact List.mem_append_right _ hm

theorem Ledger.reworked_takeOut (h : s.Ledger) {c installed : Constraint α} {tag : Tag}
    (hf : s.constraints.find? c = some (installed, tag)) :
    Reworked { s with constraints := s.constraints.erase c }
      (takeOut { s with constraints := s.constraints.erase c } installed tag) := by
  have hp : Proper { s with constraints := s.constraints.erase c } :=
    h.proper.of_rows rfl rfl rfl rfl
  exact hp.reworked_takeOut installed (h.tagged.knows _ (OrderedMap.mem_of_find? hf).1)

/-- A constraint that has been taken out leaves its references to be taken back. -/
theorem Ledger.releasing_detach (h : s.Ledger) {c installed : Constraint α} {tag : Tag}
    (hf : s.constraints.find? c = some (installed, tag)) :
    Releasing (detach { s with constraints := s.constraints.erase c } installed tag)
      installed.expression.terms :=
  h.delist hf (h.reworked_takeOut hf)

/-- What a removal leaves behind, whatever the answer is. -/
def Removed (s : Solver α) (p : Solver α × Except RemoveError Unit) : Prop :=
  p.1.Ledger ∧ p.1.settings = s.settings ∧ p.1.edits.entries.Sublist s.edits.entries

/-- Removing a constraint keeps the ledger in order, whatever the answer is. -/
theorem Ledger.remove (h : s.Ledger) (limit : Nat) (c : Constraint α) :
    Ensures (s.remove limit c) (Removed s) := by
  refine ensures_remove (fun _ => ⟨h, rfl, .refl _⟩) ?_
  rintro ⟨installed, tag⟩ hf
  have hout := (h.reworked_takeOut hf).books
  obtain ⟨hl, hsettings, -, hedits⟩ := (h.releasing_detach hf).releaseVariables
  refine (hl.reoptimize limit RemoveError.internal).mono ?_
  rintro ⟨s', answer⟩ ⟨hl', hb⟩
  simp only [books, Prod.mk.injEq] at hb hout
  refine ⟨hl', hb.1.trans (hsettings.trans hout.1), ?_⟩
  rw [hb.2.2.2.trans hedits, detach]
  dsimp only
  rw [hout.2.2.2]
  exact List.filter_sublist

/-- What taking out and row work keep, the removal of an installed constraint
keeps. -/
theorem RemovalStable.remove {I : Solver α → Prop} (h : RemovalStable I) (hr : RowStable I)
    (hi : ∀ s l, I s → I { s with infeasible := l }) {c installed : Constraint α} {tag : Tag}
    (hf : s.constraints.find? c = some (installed, tag))
    (hs : I { s with constraints := s.constraints.erase c }) (limit : Nat) :
    Ensures (s.remove limit c) (fun p => I p.1) := by
  refine ensures_remove (fun hnone => ?_) (fun e _ => ensures_reoptimize ?_)
  · rw [hf] at hnone
    cases hnone
  · refine (hr.optimize (h.uninstall hs e.1 e.2) .primary limit).mono (fun p hp => ?_)
    exact ⟨fun _ => hi _ _ hp, fun _ _ => hp⟩

/-- A removal takes the constraint off the list and no symbol out of the tableau. -/
theorem ensures_remove_kept {c installed : Constraint α} {tag : Tag}
    (hf : s.constraints.find? c = some (installed, tag)) (limit : Nat) :
    Ensures (s.remove limit c) (fun p => p.1.constraints = s.constraints.erase c ∧
      ∀ x, s.tableau.Knows x → p.1.tableau.Knows x) := by
  have hlist : RemovalStable (fun u : Solver α => u.constraints = s.constraints.erase c) :=
    ⟨fun _ _ h => h, fun _ _ _ h => h, fun _ _ h => h, fun _ _ h => h, fun _ _ h => h⟩
  have hknows : ∀ x, RemovalStable (fun u : Solver α => u.tableau.Knows x) := fun x =>
    ⟨fun _ _ h => knows_dropRow.mpr h, fun _ _ _ h => knows_substitute.mpr h, fun _ _ h => h,
      fun _ _ h => h, fun _ _ h => h⟩
  refine (hlist.remove ⟨fun _ _ h => h, fun _ _ _ h => h, fun _ _ h => h⟩ (fun _ _ h => h) hf rfl
    limit).and (fun p hp x hx => ?_)
  exact (hknows x).remove (rowStable_knows x) (fun _ _ h => h) hf hx limit p hp

end Removing

end Solver
end Tether
