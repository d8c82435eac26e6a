import Tether.Proofs.Renumbering.Insertion
import Tether.Solver.Call

/-!
# Runs under a renumbering

Solvers that mirror each other give the same answer to every call, so they
give the same answers to every sequence of calls.  A reset forgets all
symbols and with them the gap.
-/

namespace Tether
namespace Gap

open Simplex

variable {α : Type} {g : Gap} {s u : Solver α}

section Sequences

theorem alike_forEach {β ε : Type} {call : Solver α → β → Outcome (Solver α) ε}
    (hcall : ∀ s u x, g.Mirrors s u → Alike (SameAnswer g.Mirrors) (call s x) (call u x))
    (h : g.Mirrors s u) (xs : List β) :
    Alike (SameAnswer g.Mirrors) (Solver.forEach call s xs) (Solver.forEach call u xs) := by
  induction xs generalizing s u with
  | nil => exact ⟨h, rfl⟩
  | cons x rest ih =>
      refine (hcall s u x h).bind ?_
      rintro ⟨s', answer⟩ ⟨u', answer'⟩ ⟨hs', rfl⟩
      cases answer with
      | error e => exact ⟨hs', rfl⟩
      | ok done => exact ih hs'

/-- Two solvers are the same up to a gap in the numbering. -/
def Interchangeable (s u : Solver α) : Prop :=
  ∃ g : Gap, g.Mirrors s u

theorem alike_answer {ε : Type} {wrap : ε → SolverError} {o o' : Outcome (Solver α) ε}
    (h : Alike (SameAnswer g.Mirrors) o o') :
    Alike (SameAnswer Interchangeable) (Solver.answer wrap o) (Solver.answer wrap o') := by
  refine h.map ?_
  rintro ⟨s', answer⟩ ⟨u', answer'⟩ ⟨hs', rfl⟩
  exact ⟨⟨g, hs'⟩, rfl⟩

end Sequences

theorem Mirrors.hasEditVariable_eq (h : g.Mirrors s u) (v : Variable) :
    u.hasEditVariable v = s.hasEditVariable v := by
  unfold Solver.hasEditVariable
  rw [h.edits_eq, OrderedMap.contains_mapValues]

variable [Scalar α]

section Removing

theorem Mirrors.removeWeight (h : g.Mirrors s u) (strength : α) (x : Symbol) :
    g.Mirrors (Solver.removeWeight strength s x)
      (Solver.removeWeight strength u (g.symbol x)) := by
  unfold Solver.removeWeight
  rw [isError_symbol, h.opens.row?_eq]
  split
  · exact h
  · cases s.tableau.row? x with
    | none => exact h.addObjective x _
    | some r =>
        have hm := h.withObjective (s.objective.addRow r (-strength))
        rw [row_addRow, ← h.objective_eq] at hm
        exact hm

theorem Mirrors.removeWeights (h : g.Mirrors s u) (c : Constraint α) (t : Tag) :
    g.Mirrors (s.removeWeights c t) (u.removeWeights c (g.tag t)) := by
  unfold Solver.removeWeights
  rw [symbols_tag]
  rw [List.foldl_map]
  exact List.foldl_rel h (fun x _ _ _ hm => hm.removeWeight _ x)

theorem Opens.rowsOf_eq {t t' : Tableau α} (h : g.Opens t t') (marker : Symbol) :
    Solver.rowsOf t' (g.symbol marker) =
      (Solver.rowsOf t marker).map (fun b => (g.symbol b.1, g.row b.2)) := by
  unfold Solver.rowsOf
  rw [h.basics_eq, List.filter_map]
  congr 2
  funext b
  simp

theorem isRestricted_symbol (g : Gap) (x : Symbol) :
    Solver.isRestricted (g.symbol x) = Solver.isRestricted x :=
  rfl

theorem Opens.markerLeaving?_eq {t t' : Tableau α} (h : g.Opens t t') (marker : Symbol) :
    Solver.markerLeaving? t' (g.symbol marker) =
      (Solver.markerLeaving? t marker).map g.symbol := by
  have hfirst : ∀ kind : Symbol → Bool, (∀ x, kind (g.symbol x) = kind x) →
      (((Solver.rowsOf t' (g.symbol marker)).find? (fun b => kind b.1)).map (·.1)) =
        (((Solver.rowsOf t marker).find? (fun b => kind b.1)).map (·.1)).map g.symbol := by
    intro kind hk
    rw [h.rowsOf_eq, List.find?_map, Option.map_map, Option.map_map]
    simp only [Function.comp_def, hk]
  have hlowered : Solver.lowered? (g.symbol marker) (Solver.rowsOf t' (g.symbol marker)) =
      (Solver.lowered? marker (Solver.rowsOf t marker)).map g.symbol := by
    unfold Solver.lowered?
    rw [h.rowsOf_eq, ← g.least?_map_cell]
    congr 1
    refine g.filterMap_map_cell (fun b => ?_) _
    simp only [coefficient_row, constant_row, isRestricted_symbol]
    split <;> rfl
  have hraised : Solver.raised? (g.symbol marker) (Solver.rowsOf t' (g.symbol marker)) =
      (Solver.raised? marker (Solver.rowsOf t marker)).map g.symbol := by
    unfold Solver.raised?
    rw [h.rowsOf_eq, ← g.least?_map_cell]
    congr 1
    refine g.filterMap_map_cell (fun b => ?_) _
    simp only [coefficient_row, constant_row, isRestricted_symbol]
    split <;> rfl
  unfold Solver.markerLeaving?
  dsimp only
  rw [hfirst _ g.isDummy_symbol, hfirst _ g.isExternal_symbol, hlowered, hraised]
  simp only [Option.map_or]

theorem Mirrors.removeMarker (h : g.Mirrors s u) (marker : Symbol) :
    g.Mirrors (s.removeMarker marker) (u.removeMarker (g.symbol marker)) := by
  unfold Solver.removeMarker
  rw [h.opens.isBasic_eq, h.opens.markerLeaving?_eq, h.opens.withRow_eq]
  split
  · exact h.dropRow marker
  · cases Solver.withRow s.tableau (Solver.markerLeaving? s.tableau marker) with
    | none => exact h
    | some p =>
        have hm := (h.dropRow p.1).substitute marker (p.2.exchange p.1 marker)
        rw [row_exchange] at hm
        exact hm

theorem Mirrors.releaseVariable (h : g.Mirrors s u) (t : Term α) :
    g.Mirrors (s.releaseVariable t) (u.releaseVariable t) := by
  have hm := h.withUnknowns (Solver.countReference (· - 1) s.unknowns t)
  have hcollect : (Scalar.nearZero t.coefficient || !u.settings.collectUnused) =
      (Scalar.nearZero t.coefficient || !s.settings.collectUnused) := by
    rw [h.settings_eq]
  unfold Solver.releaseVariable
  rw [h.unknowns_eq, g.countReference_mapValues]
  dsimp only
  rw [hcollect]
  split
  · exact hm
  · rw [OrderedMap.get?_mapValues]
    cases (Solver.countReference (· - 1) s.unknowns t).get? t.unknown with
    | none => exact hm
    | some e =>
        dsimp only [Option.map_some, entry]
        split
        · have hd := (hm.dropRow e.symbol).withUnknowns
            ((Solver.countReference (· - 1) s.unknowns t).erase t.unknown)
          rw [OrderedMap.mapValues_erase] at hd
          exact hd
        · exact hm

theorem Mirrors.releaseVariables (h : g.Mirrors s u) (c : Constraint α) :
    g.Mirrors (s.releaseVariables c) (u.releaseVariables c) :=
  List.foldl_rel h (fun t _ _ _ hm => hm.releaseVariable t)

theorem Mirrors.endEdits (h : g.Mirrors s u) (c : Constraint α) :
    g.Mirrors { s with edits := s.edits.filter (fun _ edit => !(edit.constraint == c)) }
      { u with edits := u.edits.filter (fun _ edit => !(edit.constraint == c)) } := by
  have hm := h.withEdits (s.edits.filter (fun _ edit => !(edit.constraint == c)))
  have he : (s.edits.filter (fun _ edit => !(edit.constraint == c))).mapValues
      (fun _ => g.edit) = u.edits.filter (fun _ edit => !(edit.constraint == c)) := by
    rw [h.edits_eq]
    exact OrderedMap.mapValues_filter s.edits g.edit (fun _ _ => rfl)
  rw [he] at hm
  exact hm

theorem Mirrors.uninstall (h : g.Mirrors s u) (c : Constraint α) (t : Tag) :
    g.Mirrors (s.uninstall c t) (u.uninstall c (g.tag t)) := by
  have hk := (h.removeWeights c t).removeMarker t.marker
  have ho : g.Mirrors
      (t.other.elim ((s.removeWeights c t).removeMarker t.marker)
        ((s.removeWeights c t).removeMarker t.marker).dropRow)
      ((g.tag t).other.elim ((u.removeWeights c (g.tag t)).removeMarker (g.tag t).marker)
        ((u.removeWeights c (g.tag t)).removeMarker (g.tag t).marker).dropRow) := by
    obtain ⟨marker, other⟩ := t
    cases other with
    | none => exact hk
    | some x => exact hk.dropRow x
  exact (ho.endEdits c).releaseVariables c

theorem Mirrors.remove (h : g.Mirrors s u) (limit : Nat) (c : Constraint α) :
    Alike (SameAnswer g.Mirrors) (s.remove limit c) (u.remove limit c) := by
  unfold Solver.remove
  rw [h.constraints_eq, OrderedMap.find?_mapValues]
  cases s.constraints.find? c with
  | none => exact ⟨h, rfl⟩
  | some e =>
      have hm := h.withConstraints (s.constraints.erase c)
      rw [OrderedMap.mapValues_erase] at hm
      exact (hm.uninstall e.1 e.2).reoptimize limit _

end Removing

section Editing

theorem Mirrors.value?_eq (h : g.Mirrors s u) (v : Variable) : u.value? v = s.value? v := by
  unfold Solver.value?
  rw [h.unknowns_eq, OrderedMap.get?_mapValues, Option.map_map]
  congr 1
  funext e
  exact h.symbolValue_eq e.symbol

theorem Mirrors.addEdit (h : g.Mirrors s u) (limit : Nat) (v : Variable)
    (strength : Strength α) :
    Alike (SameAnswer g.Mirrors) (s.addEdit limit v strength) (u.addEdit limit v strength) := by
  have hv : u.value v = s.value v := by
    unfold Solver.value
    rw [h.value?_eq]
  unfold Solver.addEdit
  dsimp only
  rw [h.hasEditVariable_eq, hv]
  split
  · exact ⟨h, rfl⟩
  · split
    · exact ⟨h, rfl⟩
    · refine (h.add limit _).map ?_
      rintro ⟨s', answer⟩ ⟨u', answer'⟩ ⟨hs', rfl⟩
      cases answer with
      | error e => exact ⟨hs', rfl⟩
      | ok done =>
          dsimp only
          have hc : ∀ c, u'.constraints.get? c = (s'.constraints.get? c).map g.tag := by
            intro c
            rw [show u'.constraints = s'.constraints.mapValues (fun _ => g.tag) from
              Mirrors.constraints_eq hs', OrderedMap.get?_mapValues]
          rw [hc]
          cases s'.constraints.get? (Solver.holding v (s.value v) (.clip strength.value)) with
          | none => exact ⟨hs', rfl⟩
          | some t =>
              have hm := Mirrors.withEdits hs' (s'.edits.insert v
                ⟨t, Solver.holding v (s.value v) (.clip strength.value), s.value v⟩)
              rw [OrderedMap.mapValues_insert, ← Mirrors.edits_eq hs'] at hm
              exact ⟨hm, rfl⟩

theorem Mirrors.removeEdit (h : g.Mirrors s u) (limit : Nat) (v : Variable) :
    Alike (SameAnswer g.Mirrors) (s.removeEdit limit v) (u.removeEdit limit v) := by
  unfold Solver.removeEdit
  rw [h.edits_eq, OrderedMap.get?_mapValues]
  cases s.edits.get? v with
  | none => exact ⟨h, rfl⟩
  | some e =>
      have hm := h.withEdits (s.edits.erase v)
      rw [OrderedMap.mapValues_erase] at hm
      refine (hm.remove limit e.constraint).map ?_
      rintro ⟨s', answer⟩ ⟨u', answer'⟩ ⟨hs', rfl⟩
      exact ⟨hs', rfl⟩

theorem Mirrors.shiftRow (h : g.Mirrors s u) (x : Symbol) (delta : α) :
    g.Mirrors (s.shiftRow x delta) (u.shiftRow (g.symbol x) delta) := by
  have ht : g.Opens (s.tableau.modify x (·.shift delta))
      (u.tableau.modify (g.symbol x) (·.shift delta)) :=
    h.opens.modify x (fun r => (g.row_shift r delta).symm)
  have hm := h.withTableau ht
  unfold Solver.shiftRow
  dsimp only
  rw [hm.isInfeasible_eq]
  split
  · have hi := hm.withInfeasible (s.infeasible ++ [x])
    rw [List.map_append, ← h.infeasible_eq] at hi
    exact hi
  · exact hm

theorem Mirrors.shiftEdit (h : g.Mirrors s u) (t : Tag) (delta : α) :
    g.Mirrors (s.shiftEdit t delta) (u.shiftEdit (g.tag t) delta) := by
  have hother : u.basicOther? (g.tag t) = (s.basicOther? t).map g.symbol := by
    unfold Solver.basicOther?
    obtain ⟨marker, other⟩ := t
    cases other with
    | none => rfl
    | some x =>
        simp only [tag, Option.map_some, Option.filter_some, h.opens.isBasic_eq]
        split <;> rfl
  unfold Solver.shiftEdit
  rw [hother]
  simp only [tag, h.opens.isBasic_eq]
  split
  · exact h.shiftRow t.marker _
  · cases s.basicOther? t with
    | some x => exact h.shiftRow x delta
    | none =>
        refine h.modifyMentioning t.marker (fun r => ?_)
        rw [coefficient_row]
        rfl

theorem Mirrors.suggest (h : g.Mirrors s u) (limit : Nat) (v : Variable) (x : α) :
    Alike (SameAnswer g.Mirrors) (s.suggest limit v x) (u.suggest limit v x) := by
  unfold Solver.suggest
  rw [h.edits_eq, OrderedMap.get?_mapValues]
  cases s.edits.get? v with
  | none => exact ⟨h, rfl⟩
  | some e =>
      have he : (s.edits.modify v (fun edit => { edit with constant := x })).mapValues
          (fun _ => g.edit) = (s.edits.mapValues (fun _ => g.edit)).modify v
            (fun edit => { edit with constant := x }) := by
        refine OrderedMap.mapValues_modify s.edits g.edit ?_ v
        exact fun _ => rfl
      have hm := h.withEdits (s.edits.modify v (fun edit => { edit with constant := x }))
      rw [he] at hm
      dsimp only [Option.map_some, edit]
      split
      · exact ⟨hm, rfl⟩
      · refine ((hm.shiftEdit e.tag (x - e.constant)).dualOptimize limit).map ?_
        rintro ⟨s', answer⟩ ⟨u', answer'⟩ ⟨hs', rfl⟩
        exact ⟨hs', rfl⟩

end Editing

section Flushing

theorem Mirrors.isStale_eq (h : g.Mirrors s u) (e : VariableEntry α) :
    u.isStale (g.entry e) = s.isStale e := by
  unfold Solver.isStale
  dsimp only [entry]
  cases e.reported with
  | none => rfl
  | some x =>
      dsimp only
      rw [h.symbolValue_eq]

theorem Mirrors.flush (h : g.Mirrors s u) :
    u.flush.2 = s.flush.2 ∧ g.Mirrors s.flush.1 u.flush.1 := by
  constructor
  · unfold Solver.flush Solver.pending
    dsimp only
    rw [h.unknowns_eq]
    simp only [OrderedMap.mapValues, List.filterMap_map, Function.comp_def, h.isStale_eq]
    congr 1
    funext e
    dsimp only [entry]
    rw [h.symbolValue_eq]
  · have hm := h.withUnknowns s.flush.1.unknowns
    have hu : u.flush.1.unknowns = s.flush.1.unknowns.mapValues (fun _ => g.entry) := by
      unfold Solver.flush Solver.markReported
      dsimp only
      rw [h.unknowns_eq]
      refine (OrderedMap.mapValues_mapValues _ _ (fun _ e => ?_)).symm
      rw [h.isStale_eq]
      split
      · dsimp only [entry]
        rw [h.symbolValue_eq]
      · rfl
    rw [← hu] at hm
    exact hm

end Flushing

section Runs

theorem mirrors_reset (h : g.Mirrors s u) : Interchangeable s.reset u.reset := by
  refine ⟨⟨0, 0⟩, Tableau.empty, opens_empty, ?_⟩
  unfold Solver.reset
  rw [h.settings_eq]
  rfl

theorem Interchangeable.perform (h : Interchangeable s u) (limit : Nat)
    (call : SolverCall α) :
    Alike (SameAnswer Interchangeable) (s.perform limit call) (u.perform limit call) := by
  obtain ⟨g, h⟩ := h
  have hsame : ∀ {a b : SolverAnswer α}, a = b → SameAnswer Interchangeable (s, a) (u, b) :=
    fun he => ⟨⟨g, h⟩, he⟩
  cases call with
  | add c => exact alike_answer (h.add limit c)
  | addAll cs => exact alike_answer (alike_forEach (fun _ _ c h => h.add limit c) h cs)
  | remove c => exact alike_answer (h.remove limit c)
  | removeAll cs => exact alike_answer (alike_forEach (fun _ _ c h => h.remove limit c) h cs)
  | hasConstraint c => exact hsame (congrArg _ (h.hasConstraint_eq c).symm)
  | addEdit v strength => exact alike_answer (h.addEdit limit v strength)
  | removeEdit v => exact alike_answer (h.removeEdit limit v)
  | hasEditVariable v => exact hsame (congrArg _ (h.hasEditVariable_eq v).symm)
  | hasVariable v =>
      refine hsame (congrArg _ ?_)
      unfold Solver.hasVariable
      rw [h.unknowns_eq, OrderedMap.contains_mapValues]
  | suggest v x => exact alike_answer (h.suggest limit v x)
  | value v => exact hsame (congrArg _ (h.value?_eq v).symm)
  | flush =>
      obtain ⟨hc, hm⟩ := h.flush
      exact ⟨⟨g, hm⟩,
        congrArg (fun c => SolverAnswer.updates (Solver.flushOutcome c) c) hc.symm⟩
  | constraints =>
      refine hsame (congrArg _ ?_)
      rw [h.constraints_eq, OrderedMap.keys_mapValues]
  | settings => exact hsame (congrArg _ h.settings_eq.symm)
  | reset => exact ⟨mirrors_reset h, rfl⟩

/-- Solvers that are the same up to a gap answer every sequence of calls
alike, and are the same up to a gap afterwards. -/
theorem Interchangeable.run (h : Interchangeable s u) (limit : Nat)
    (calls : List (SolverCall α)) :
    Alike (SameAnswer Interchangeable) (s.run limit calls) (u.run limit calls) := by
  induction calls generalizing s u with
  | nil => exact ⟨h, rfl⟩
  | cons call rest ih =>
      refine (h.perform limit call).bind ?_
      rintro ⟨s', first⟩ ⟨u', first'⟩ ⟨hs', rfl⟩
      refine (ih hs').map ?_
      rintro ⟨s'', others⟩ ⟨u'', others'⟩ ⟨hs'', rfl⟩
      exact ⟨hs'', rfl⟩

end Runs

end Gap
end Tether
