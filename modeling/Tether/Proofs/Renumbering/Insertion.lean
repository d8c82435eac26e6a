import Tether.Proofs.Renumbering.Pivots
import Tether.Solver.Insertion

/-!
# Insertion under a renumbering

Solvers that mirror each other make rows, choose subjects and probe alike, so
they give the same answer to every addition and mirror each other afterwards.
-/

namespace Tether
namespace Gap

open Simplex

variable {α : Type}

section Making

variable {g : Gap} {s u : Solver α}

theorem Mirrors.constraints_eq (h : g.Mirrors s u) :
    u.constraints = s.constraints.mapValues (fun _ => g.tag) := by
  obtain ⟨t, -, rfl⟩ := h
  rfl

theorem Mirrors.unknowns_eq (h : g.Mirrors s u) :
    u.unknowns = s.unknowns.mapValues (fun _ => g.entry) := by
  obtain ⟨t, -, rfl⟩ := h
  rfl

theorem Mirrors.edits_eq (h : g.Mirrors s u) :
    u.edits = s.edits.mapValues (fun _ => g.edit) := by
  obtain ⟨t, -, rfl⟩ := h
  rfl

theorem Mirrors.settings_eq (h : g.Mirrors s u) : u.settings = s.settings := by
  obtain ⟨t, -, rfl⟩ := h
  rfl

theorem Mirrors.withUnknowns (h : g.Mirrors s u) (m : OrderedMap Variable (VariableEntry α)) :
    g.Mirrors { s with unknowns := m }
      { u with unknowns := m.mapValues (fun _ => g.entry) } := by
  obtain ⟨t, ht, rfl⟩ := h
  exact ⟨t, ht, rfl⟩

theorem Mirrors.withConstraints (h : g.Mirrors s u) (m : OrderedMap (Constraint α) Tag) :
    g.Mirrors { s with constraints := m }
      { u with constraints := m.mapValues (fun _ => g.tag) } := by
  obtain ⟨t, ht, rfl⟩ := h
  exact ⟨t, ht, rfl⟩

theorem Mirrors.withEdits (h : g.Mirrors s u) (m : OrderedMap Variable (Edit α)) :
    g.Mirrors { s with edits := m } { u with edits := m.mapValues (fun _ => g.edit) } := by
  obtain ⟨t, ht, rfl⟩ := h
  exact ⟨t, ht, rfl⟩

theorem Mirrors.newSymbol (h : g.Mirrors s u) (kind : SymbolKind) :
    (u.newSymbol kind).1 = g.symbol (s.newSymbol kind).1 ∧
      g.Mirrors (s.newSymbol kind).2 (u.newSymbol kind).2 := by
  obtain ⟨hx, ht⟩ := h.opens.newSymbol kind
  exact ⟨hx, h.withTableau ht⟩

theorem Mirrors.symbolOf (h : g.Mirrors s u) (v : Variable) :
    (u.symbolOf v).1 = g.symbol (s.symbolOf v).1 ∧
      g.Mirrors (s.symbolOf v).2 (u.symbolOf v).2 := by
  unfold Solver.symbolOf
  rw [h.unknowns_eq, OrderedMap.get?_mapValues]
  cases s.unknowns.get? v with
  | some entry => exact ⟨rfl, h⟩
  | none =>
      obtain ⟨hx, ht⟩ := h.opens.newSymbol .external
      refine ⟨hx, ?_⟩
      have hm := (h.withTableau ht).withUnknowns
        (s.unknowns.insert v ⟨(s.tableau.newSymbol .external).1, none, 0⟩)
      rw [OrderedMap.mapValues_insert] at hm
      simp only [Option.map_none, hx]
      exact hm

theorem Mirrors.forgetAfter (h : g.Mirrors s u) (known : Nat) :
    g.Mirrors (s.forgetAfter known) (u.forgetAfter known) := by
  have hm := h.withUnknowns (s.unknowns.take known)
  rw [OrderedMap.mapValues_take, ← h.unknowns_eq] at hm
  exact hm

theorem Mirrors.undoProbe (h : g.Mirrors s u) (objective : Row α) (known : Nat) :
    g.Mirrors (s.undoProbe objective known) (u.undoProbe (g.row objective) known) :=
  ((((h.forgetAfter known).withTableau h.opens.rollback).withObjective objective).withArtificial
    none).withInfeasible []

theorem Mirrors.keepProbe (h : g.Mirrors s u) : g.Mirrors s.keepProbe u.keepProbe :=
  h.withTableau h.opens.commit

theorem Mirrors.dropArtificial (h : g.Mirrors s u) (x : Symbol) :
    g.Mirrors (s.dropArtificial x) (u.dropArtificial (g.symbol x)) := by
  have ht : g.Opens (s.tableau.modifyMentioning x (fun _ r => r.erase x))
      (u.tableau.modifyMentioning (g.symbol x) (fun _ r => r.erase (g.symbol x))) :=
    h.opens.modifyMentioning x (fun r => (g.row_erase r x).symm)
  have hm := (h.withTableau ht).withObjective (s.objective.erase x)
  rw [row_erase, ← h.objective_eq] at hm
  exact hm

end Making

variable [Scalar α] {g : Gap} {s u : Solver α}

section Rows

/-- A row and a solver mirror a row and a solver. -/
def MirrorDrafts (g : Gap) (draft draft' : Row α × Solver α) : Prop :=
  draft'.1 = g.row draft.1 ∧ g.Mirrors draft.2 draft'.2

/-- A row, a tag and a solver mirror a row, a tag and a solver. -/
def MirrorMade (g : Gap) (made made' : Row α × Tag × Solver α) : Prop :=
  made'.1 = g.row made.1 ∧ made'.2.1 = g.tag made.2.1 ∧ g.Mirrors made.2.2 made'.2.2

theorem Mirrors.addObjective (h : g.Mirrors s u) (x : Symbol) (weight : α) :
    g.Mirrors (s.addObjective x weight) (u.addObjective (g.symbol x) weight) := by
  have hm := h.withObjective (s.objective.insert x weight)
  rw [row_insert, ← h.objective_eq] at hm
  exact hm

theorem MirrorDrafts.addTerm {d d' : Row α × Solver α} (h : g.MirrorDrafts d d') (t : Term α) :
    g.MirrorDrafts (Solver.addTerm d t) (Solver.addTerm d' t) := by
  obtain ⟨hr, hs⟩ := h
  obtain ⟨hx, hm⟩ := hs.symbolOf t.unknown
  unfold Solver.addTerm
  split
  · exact ⟨hr, hs⟩
  · dsimp only
    rw [hx, hm.opens.row?_eq]
    cases (d.2.symbolOf t.unknown).2.tableau.row? (d.2.symbolOf t.unknown).1 with
    | none => exact ⟨hr ▸ (g.row_insert _ _ _).symm, hm⟩
    | some q => exact ⟨hr ▸ (g.row_addRow _ _ _).symm, hm⟩

theorem MirrorDrafts.foldl_addTerm {d d' : Row α × Solver α} (h : g.MirrorDrafts d d')
    (terms : List (Term α)) :
    g.MirrorDrafts (terms.foldl Solver.addTerm d) (terms.foldl Solver.addTerm d') :=
  List.foldl_rel h (fun t _ _ _ hd => hd.addTerm t)

theorem Mirrors.addSlack (h : g.Mirrors s u) (r : Row α) (strength : Strength α) (x : α) :
    g.MirrorMade (Solver.addSlack r s strength x) (Solver.addSlack (g.row r) u strength x) := by
  obtain ⟨hs, hm⟩ := h.newSymbol .slack
  unfold Solver.addSlack
  dsimp only
  split
  · rw [hs]
    exact ⟨(g.row_insert _ _ _).symm, rfl, hm⟩
  · obtain ⟨he, hm'⟩ := hm.newSymbol .error
    rw [hs, he]
    refine ⟨?_, rfl, hm'.addObjective _ _⟩
    rw [row_insert, row_insert]

theorem Mirrors.addErrors (h : g.Mirrors s u) (r : Row α) (strength : Strength α) :
    g.MirrorMade (Solver.addErrors r s strength) (Solver.addErrors (g.row r) u strength) := by
  unfold Solver.addErrors
  split
  · obtain ⟨hd, hm⟩ := h.newSymbol .dummy
    dsimp only
    rw [hd]
    exact ⟨(g.row_insert _ _ _).symm, rfl, hm⟩
  · obtain ⟨ha, hm⟩ := h.newSymbol .error
    obtain ⟨hb, hm'⟩ := hm.newSymbol .error
    dsimp only
    rw [ha, hb]
    refine ⟨?_, rfl, (hm'.addObjective _ _).addObjective _ _⟩
    rw [row_insert, row_insert]

/-- Solvers that mirror each other make the same row and the same symbols. -/
theorem Mirrors.createRow (h : g.Mirrors s u) (c : Constraint α) :
    g.MirrorMade (s.createRow c) (u.createRow c) := by
  have hd : g.MirrorDrafts
      (c.expression.terms.foldl Solver.addTerm (.ofConstant c.expression.constant, s))
      (c.expression.terms.foldl Solver.addTerm (.ofConstant c.expression.constant, u)) :=
    MirrorDrafts.foldl_addTerm ⟨rfl, h⟩ _
  have hsign : ∀ {m m' : Row α × Tag × Solver α}, g.MirrorMade m m' → g.MirrorMade
      (if Scalar.negative m.1.constant then m.1.negate else m.1, m.2.1, m.2.2)
      (if Scalar.negative m'.1.constant then m'.1.negate else m'.1, m'.2.1, m'.2.2) := by
    rintro m m' ⟨hr, ht, hs⟩
    refine ⟨?_, ht, hs⟩
    dsimp only
    rw [hr, constant_row]
    split
    · exact (g.row_negate _).symm
    · rfl
  obtain ⟨hr, hs⟩ := hd
  unfold Solver.createRow
  dsimp only
  rw [hr]
  cases c.relation with
  | lessOrEqual => exact hsign (hs.addSlack _ _ _)
  | greaterOrEqual => exact hsign (hs.addSlack _ _ _)
  | equalTo => exact hsign (hs.addErrors _ _)

theorem isFreeSubject_row (g : Gap) (r : Row α) (x : Symbol) :
    Solver.isFreeSubject (g.row r) (g.symbol x) = Solver.isFreeSubject r x := by
  simp [Solver.isFreeSubject]

theorem subject?_row (g : Gap) (r : Row α) (t : Tag) :
    Solver.subject? (g.row r) (g.tag t) = (Solver.subject? r t).map g.symbol := by
  have hext : (g.row r).cells.filter (·.1.isExternal) =
      (r.cells.filter (·.1.isExternal)).map g.cell := by
    rw [cells_row, List.filter_map]
    rfl
  have hfree : (g.tag t).symbols.find? (Solver.isFreeSubject (g.row r)) =
      (t.symbols.find? (Solver.isFreeSubject r)).map g.symbol := by
    rw [symbols_tag, List.find?_map]
    congr 2
    funext x
    exact g.isFreeSubject_row r x
  unfold Solver.subject?
  dsimp only
  rw [hext, hfree, List.find?_map, List.head?_map]
  have hneg : (fun c : Cell α => Scalar.negative c.2) ∘ g.cell =
      (fun c => Scalar.negative c.2) := rfl
  rw [hneg]
  cases (r.cells.filter (·.1.isExternal)).find? (fun c => Scalar.negative c.2) with
  | some c => rfl
  | none =>
      cases (r.cells.filter (·.1.isExternal)).head? with
      | some c => rfl
      | none => cases t.symbols.find? (Solver.isFreeSubject r) <;> rfl

end Rows

section References

theorem countReference_mapValues (g : Gap) (f : Nat → Nat)
    (m : OrderedMap Variable (VariableEntry α)) (t : Term α) :
    Solver.countReference f (m.mapValues (fun _ => g.entry)) t =
      (Solver.countReference f m t).mapValues (fun _ => g.entry) := by
  unfold Solver.countReference
  split
  · rfl
  · refine (OrderedMap.mapValues_modify m g.entry ?_ t.unknown).symm
    exact fun _ => rfl

theorem Mirrors.retainVariables (h : g.Mirrors s u) (c : Constraint α) :
    g.Mirrors (s.retainVariables c) (u.retainVariables c) := by
  have hm : c.expression.terms.foldl (Solver.countReference (· + 1))
      (s.unknowns.mapValues (fun _ => g.entry)) =
        (s.retainVariables c).unknowns.mapValues (fun _ => g.entry) :=
    List.foldl_hom (fun m => m.mapValues (fun _ => g.entry))
      (fun m t => g.countReference_mapValues (· + 1) m t)
  have hu := h.withUnknowns (s.retainVariables c).unknowns
  rw [← hm, ← h.unknowns_eq] at hu
  exact hu

end References

section Probing

theorem Mirrors.settleProbe (h : g.Mirrors s u) (x : Symbol) (success : Bool) :
    (u.settleProbe (g.symbol x) success).1 = (s.settleProbe x success).1 ∧
      g.Mirrors (s.settleProbe x success).2 (u.settleProbe (g.symbol x) success).2 := by
  unfold Solver.settleProbe
  rw [h.opens.row?_eq]
  cases s.tableau.row? x with
  | none => exact ⟨rfl, h.dropArtificial x⟩
  | some r =>
      dsimp only [Option.map_some]
      rw [isConstant_row, firstPivotable?_row]
      split
      · exact ⟨rfl, h.dropRow x⟩
      · cases r.firstPivotable? with
        | none => exact ⟨rfl, h.dropRow x⟩
        | some entering => exact ⟨rfl, (h.pivot x entering r).dropArtificial x⟩

theorem Mirrors.probe (h : g.Mirrors s u) (limit : Nat) (r : Row α) :
    Alike (SameAnswer g.Mirrors) (Solver.probe limit s r) (Solver.probe limit u (g.row r)) := by
  obtain ⟨hx, hm⟩ := h.newSymbol .slack
  unfold Solver.probe
  dsimp only
  rw [hx]
  have hstart := (hm.withTableau (hm.opens.insert (s.newSymbol .slack).1 r)).withArtificial (some r)
  refine (hstart.optimize .artificial limit).map ?_
  rintro ⟨s', answer⟩ ⟨u', answer'⟩ ⟨hs', rfl⟩
  cases answer with
  | error why => exact ⟨hs', rfl⟩
  | ok done =>
      have hsuccess : u'.artificial.any (fun r => Scalar.nearZero r.constant) =
          s'.artificial.any (fun r => Scalar.nearZero r.constant) := by
        rw [show u'.artificial = s'.artificial.map g.row from hs'.artificial_eq, Option.any_map]
        rfl
      dsimp only
      rw [hsuccess]
      obtain ⟨hok, hs''⟩ := (hs'.withArtificial none).settleProbe (s.newSymbol .slack).1
        (s'.artificial.any (fun r => Scalar.nearZero r.constant))
      exact ⟨hs'', congrArg Except.ok hok.symm⟩

end Probing

section Adding

theorem Mirrors.reoptimize {ε : Type} (h : g.Mirrors s u) (limit : Nat)
    (internal : String → ε) :
    Alike (SameAnswer g.Mirrors) (Solver.reoptimize limit internal s)
      (Solver.reoptimize limit internal u) := by
  unfold Solver.reoptimize
  refine (h.optimize .primary limit).map ?_
  rintro ⟨s', answer⟩ ⟨u', answer'⟩ ⟨hs', rfl⟩
  cases answer with
  | error why => exact ⟨hs', rfl⟩
  | ok done => exact ⟨hs'.withInfeasible [], rfl⟩

theorem Mirrors.install (h : g.Mirrors s u) (limit : Nat) (c : Constraint α) (t : Tag) :
    Alike (SameAnswer g.Mirrors) (Solver.install limit s c t)
      (Solver.install limit u c (g.tag t)) := by
  have hm := (h.retainVariables c).withConstraints (s.constraints.insert c t)
  rw [OrderedMap.mapValues_insert, ← h.constraints_eq] at hm
  exact hm.reoptimize limit _

theorem Mirrors.installByProbe (h : g.Mirrors s u) (limit known : Nat) (c : Constraint α)
    (r : Row α) (t : Tag) :
    Alike (SameAnswer g.Mirrors) (Solver.installByProbe limit s known c r t)
      (Solver.installByProbe limit u known c (g.row r) (g.tag t)) := by
  unfold Solver.installByProbe
  refine ((h.withTableau h.opens.openJournal).probe limit r).bind ?_
  rintro ⟨s', answer⟩ ⟨u', answer'⟩ ⟨hs', rfl⟩
  cases answer with
  | error why => exact ⟨hs'.keepProbe, rfl⟩
  | ok success =>
      cases success with
      | false =>
          have hm := Mirrors.undoProbe hs' s.objective known
          rw [← h.objective_eq] at hm
          exact ⟨hm, rfl⟩
      | true => exact hs'.keepProbe.install limit c t

theorem Mirrors.hasConstraint_eq (h : g.Mirrors s u) (c : Constraint α) :
    u.hasConstraint c = s.hasConstraint c := by
  unfold Solver.hasConstraint
  rw [h.constraints_eq, OrderedMap.contains_mapValues]

/-- Solvers that mirror each other give the same answer to every addition. -/
theorem Mirrors.add (h : g.Mirrors s u) (limit : Nat) (c : Constraint α) :
    Alike (SameAnswer g.Mirrors) (s.add limit c) (u.add limit c) := by
  obtain ⟨hr, ht, hm⟩ := h.createRow c
  have hsize : u.unknowns.size = s.unknowns.size := by
    rw [h.unknowns_eq, OrderedMap.size_mapValues]
  unfold Solver.add
  rw [h.hasConstraint_eq, hsize]
  split
  · rfl
  · split
    · exact ⟨h, rfl⟩
    · dsimp only
      rw [hr, ht, subject?_row]
      cases Solver.subject? (s.createRow c).1 (s.createRow c).2.1 with
      | some x =>
          dsimp only [Option.map_some]
          rw [← row_solveFor]
          exact (hm.enter x _).install limit c _
      | none =>
          dsimp only [Option.map_none]
          rw [allDummies_row, constant_row]
          split
          · exact hm.installByProbe limit _ c _ _
          · split
            · have he := hm.enter (s.createRow c).2.1.marker
                ((s.createRow c).1.solveFor (s.createRow c).2.1.marker)
              rw [row_solveFor] at he
              exact he.install limit c _
            · exact ⟨hm.forgetAfter _, rfl⟩

end Adding

end Gap
end Tether
