import Tether.Proofs.Solver.Ledger

/-!
# Drafting keeps the books

The row of a new constraint speaks of parametric symbols only, and the symbols
made for the constraint are new, parametric, different and of the right kinds.
Every variable that the constraint refers to is known afterwards.
-/

namespace Tether
namespace Solver

open Simplex

variable {α : Type}

section Making

theorem Proper.newSymbol {s : Solver α} (h : s.Proper) (kind : SymbolKind) :
    (s.newSymbol kind).2.Proper where
  rows := h.rows.newSymbol kind
  objective := h.objective.newSymbol kind
  artificial := fun r hr => (h.artificial r hr).newSymbol kind
  infeasible := fun x hx => (h.infeasible x hx).newSymbol kind

/-- The symbol of a variable stands in the entry of the variable. -/
theorem get?_symbolOf (s : Solver α) (v : Variable) :
    ∃ entry, (s.symbolOf v).2.unknowns.get? v = some entry ∧
      entry.symbol = (s.symbolOf v).1 := by
  unfold symbolOf
  cases hv : s.unknowns.get? v with
  | some entry => exact ⟨entry, hv, rfl⟩
  | none =>
      have hn : s.unknowns.entries.find? (fun e => e.1 == v) = none :=
        Option.map_eq_none_iff.mp hv
      refine ⟨⟨(s.tableau.newSymbol .external).1, none, 0⟩, ?_, rfl⟩
      simp [OrderedMap.get?, OrderedMap.find?, List.find?_append, hn,
        OrderedMap.entries_insert_of_not_contains (OrderedMap.get?_eq_none_iff.mp hv)]

/-- What is parametric stays so while symbols are made. -/
theorem Drafts.parametric {s u : Solver α} (h : Drafts s u) {x : Symbol}
    (hx : s.tableau.Parametric x) : u.tableau.Parametric x :=
  ⟨h.tableau.knows hx.1, (h.tableau.rowAt?_eq x.id).trans hx.2⟩

theorem Drafts.admits {s u : Solver α} (h : Drafts s u) {r : Row α}
    (hr : s.tableau.Admits r) : u.tableau.Admits r :=
  hr.of_parametric (fun _ _ hy => h.parametric hy)

theorem Drafts.contains {s u : Solver α} (h : Drafts s u) {v : Variable}
    (hv : s.unknowns.contains v = true) : u.unknowns.contains v = true := by
  obtain ⟨rest, hrest⟩ := h.unknowns
  unfold OrderedMap.contains at hv ⊢
  rw [← hrest, List.any_append, hv, Bool.true_or]

end Making

variable [Scalar α]

section Symbols

theorem Ledger.newSymbol {s : Solver α} (h : s.Ledger) (kind : SymbolKind) :
    (s.newSymbol kind).2.Ledger :=
  h.of_books (h.proper.newSymbol kind) rfl (fun _ hx => hx.newSymbol kind)

theorem Proper.addObjective {s : Solver α} (h : s.Proper) {x : Symbol}
    (hx : s.tableau.Parametric x) (weight : α) : (s.addObjective x weight).Proper where
  rows := h.rows
  objective := h.objective.insert hx weight
  artificial := h.artificial
  infeasible := h.infeasible

theorem Ledger.addObjective {s : Solver α} (h : s.Ledger) {x : Symbol}
    (hx : s.tableau.Parametric x) (weight : α) : (s.addObjective x weight).Ledger :=
  h.of_books (h.proper.addObjective hx weight) rfl (fun _ hy => hy)

theorem Ledger.symbolOf {s : Solver α} (h : s.Ledger) (v : Variable) :
    (s.symbolOf v).2.Ledger ∧ (s.symbolOf v).2.tableau.Knows (s.symbolOf v).1 := by
  unfold Solver.symbolOf
  split
  · rename_i entry hv
    obtain ⟨v', hm, -⟩ := OrderedMap.mem_of_get? hv
    exact ⟨h, (h.counted.symbols _ hm).1⟩
  · rename_i hv
    refine ⟨?_, Tableau.knows_newSymbol s.tableau .external⟩
    exact ⟨(h.proper.newSymbol .external).of_rows rfl rfl rfl rfl,
      h.tagged.mono (fun _ hx => hx.newSymbol .external),
      h.counted.insert (OrderedMap.get?_eq_none_iff.mp hv), h.held⟩

end Symbols

section Terms

/-- A draft that is in order: the ledger is, and the tableau admits the row. -/
def Draft (draft : Row α × Solver α) : Prop :=
  draft.2.Ledger ∧ draft.2.tableau.Admits draft.1

theorem Draft.addTerm {draft : Row α × Solver α} (h : Draft draft) (t : Term α) :
    Draft (addTerm draft t) := by
  obtain ⟨hl, hr⟩ := h
  obtain ⟨hl', hk⟩ := hl.symbolOf t.unknown
  have hr' := (drafts_symbolOf draft.2 t.unknown).admits hr
  unfold Solver.addTerm
  split
  · exact ⟨hl, hr⟩
  · dsimp only
    split
    · rename_i r hrow
      exact ⟨hl', hr'.addRow (hl'.proper.rows _ r hrow) _⟩
    · rename_i hrow
      exact ⟨hl', hr'.insert ⟨hk, hrow⟩ _⟩

theorem contains_addTerm (draft : Row α × Solver α) {t : Term α}
    (ht : Scalar.nearZero t.coefficient = false) :
    (addTerm draft t).2.unknowns.contains t.unknown = true := by
  have hs : (addTerm draft t).2 = (draft.2.symbolOf t.unknown).2 := by
    simp only [addTerm, ht, Bool.false_eq_true, if_false]
    split <;> rfl
  obtain ⟨entry, he, -⟩ := get?_symbolOf draft.2 t.unknown
  rw [hs, ← OrderedMap.isSome_get?, he]
  rfl

theorem Draft.foldl_addTerm {draft : Row α × Solver α} (h : Draft draft)
    (terms : List (Term α)) :
    Draft (terms.foldl Solver.addTerm draft) ∧
      ∀ t ∈ terms, Scalar.nearZero t.coefficient = false →
        (terms.foldl Solver.addTerm draft).2.unknowns.contains t.unknown = true := by
  induction terms generalizing draft with
  | nil => exact ⟨h, by simp⟩
  | cons t rest ih =>
      obtain ⟨hd, hc⟩ := ih (h.addTerm t)
      refine ⟨hd, ?_⟩
      intro x hx hz
      rcases List.mem_cons.mp hx with rfl | hx
      · exact (drafts_foldl_addTerm rest _).contains (contains_addTerm draft hz)
      · exact hc x hx hz

theorem Ledger.draft_ofConstant {s : Solver α} (h : s.Ledger) (a : α) :
    Draft (Row.ofConstant a, s) :=
  ⟨h, Tableau.admits_ofConstant _ _⟩

theorem Ledger.draft_addTerms {s : Solver α} (h : s.Ledger) (c : Constraint α) :
    Draft (s.addTerms c) :=
  ((h.draft_ofConstant _).foldl_addTerm c.expression.terms).1

end Terms

section Markers

/-- A row and a tag that were made for a constraint, starting from a solver,
and the solver that has been reached. -/
structure Made (s : Solver α) (c : Constraint α) (r : Row α) (tag : Tag) (u : Solver α) :
    Prop where
  drafts : Drafts s u
  ledger : u.Ledger
  admits : u.tableau.Admits r
  fits : tag.Fits c
  parametric : ∀ x ∈ tag.symbols, u.tableau.Parametric x
  fresh : ∀ x ∈ tag.symbols, s.tableau.symbolCount ≤ x.id
  distinct : tag.symbols.Nodup

variable {s : Solver α} {r : Row α}

/-- One new symbol is enough for a required constraint. -/
theorem made_marker (h : Draft (r, s)) {c : Constraint α} (hc : c.strength.isRequired = true)
    (x : α) :
    Made s c (r.insert (s.newSymbol c.markerKind).1 x) ⟨(s.newSymbol c.markerKind).1, none⟩
      (s.newSymbol c.markerKind).2 := by
  have hp := Tableau.parametric_newSymbol s.tableau c.markerKind
  refine ⟨drafts_newSymbol s _, h.1.newSymbol _, (h.2.newSymbol _).insert hp x, ?_, ?_, ?_, ?_⟩
  · exact ⟨rfl, by simp [hc]⟩
  · intro y hy
    rw [List.mem_singleton.mp hy]
    exact hp
  · intro y hy
    rw [List.mem_singleton.mp hy]
    exact Nat.le_refl _
  · exact List.nodup_singleton _

/-- Two new symbols go with a preference, one of them an error at least. -/
theorem made_pair (h : Draft (r, s)) {c : Constraint α} (hc : c.strength.isRequired = false)
    (x y : α) :
    Made s c
      ((r.insert (s.newSymbol c.markerKind).1 x).insert
        ((s.newSymbol c.markerKind).2.newSymbol .error).1 y)
      ⟨(s.newSymbol c.markerKind).1, some ((s.newSymbol c.markerKind).2.newSymbol .error).1⟩
      ((s.newSymbol c.markerKind).2.newSymbol .error).2 := by
  have hd := drafts_newSymbol s c.markerKind
  have hd' := drafts_newSymbol (s.newSymbol c.markerKind).2 .error
  have hp := Tableau.parametric_newSymbol s.tableau c.markerKind
  have hp' := Tableau.parametric_newSymbol (s.newSymbol c.markerKind).2.tableau .error
  have hlt : (s.newSymbol c.markerKind).1.id <
      ((s.newSymbol c.markerKind).2.newSymbol .error).1.id :=
    hp.1.id_lt
  refine ⟨hd.trans hd', (h.1.newSymbol _).newSymbol _, ?_, ?_, ?_, ?_, ?_⟩
  · exact (((h.2.newSymbol _).insert hp x).newSymbol _).insert hp' y
  · exact ⟨rfl, by rw [hc]; rfl⟩
  · intro z hz
    rcases List.mem_cons.mp hz with rfl | hz
    · exact hd'.parametric hp
    · rw [List.mem_singleton.mp hz]
      exact hp'
  · intro z hz
    rcases List.mem_cons.mp hz with rfl | hz
    · exact Nat.le_refl _
    · rw [List.mem_singleton.mp hz]
      exact Nat.le_of_lt hlt
  · refine List.nodup_cons.mpr ⟨?_, List.nodup_singleton _⟩
    intro hm
    exact Nat.ne_of_lt hlt (congrArg Symbol.id (List.mem_singleton.mp hm))

theorem Made.addObjective {c : Constraint α} {tag : Tag} {u : Solver α}
    (h : Made s c r tag u) {x : Symbol} (hx : x ∈ tag.symbols) (weight : α) :
    Made s c r tag (u.addObjective x weight) :=
  ⟨h.drafts.trans (drafts_addObjective u x weight),
    h.ledger.addObjective (h.parametric x hx) weight, h.admits, h.fits, h.parametric,
    h.fresh, h.distinct⟩

theorem made_addSlack (h : Draft (r, s)) {c : Constraint α} (hk : c.markerKind = .slack)
    (x : α) :
    Made s c (addSlack r s c.strength x).1 (addSlack r s c.strength x).2.1
      (addSlack r s c.strength x).2.2 := by
  unfold addSlack
  dsimp only
  split
  · rename_i hc
    have := made_marker h hc x
    rwa [hk] at this
  · rename_i hc
    have := made_pair h (by simpa using hc) x (-x)
    rw [hk] at this
    exact this.addObjective (by simp [Tag.symbols]) _

theorem made_addErrors (h : Draft (r, s)) {c : Constraint α} (hr : c.relation = .equalTo) :
    Made s c (addErrors r s c.strength).1 (addErrors r s c.strength).2.1
      (addErrors r s c.strength).2.2 := by
  unfold addErrors
  split
  · rename_i hc
    have hk : c.markerKind = .dummy := by simp [Constraint.markerKind, hr, hc]
    have := made_marker h hc Scalar.one
    rwa [hk] at this
  · rename_i hc
    have hk : c.markerKind = .error := by simp [Constraint.markerKind, hr, hc]
    have := made_pair h (by simpa using hc) (-Scalar.one) Scalar.one
    rw [hk] at this
    exact (this.addObjective (by simp [Tag.symbols]) _).addObjective (by simp [Tag.symbols]) _

theorem made_addMarkers (h : Draft (r, s)) (c : Constraint α) :
    Made s c (addMarkers r s c).1 (addMarkers r s c).2.1 (addMarkers r s c).2.2 := by
  unfold addMarkers
  split
  · rename_i hr
    exact made_addSlack h (by simp [Constraint.markerKind, hr]) _
  · rename_i hr
    exact made_addSlack h (by simp [Constraint.markerKind, hr]) _
  · rename_i hr
    exact made_addErrors h hr

/-- Creating the row of a constraint keeps the ledger and makes a fitting tag
of new symbols. -/
theorem made_createRow (hs : s.Ledger) (c : Constraint α) :
    Made s c (s.createRow c).1 (s.createRow c).2.1 (s.createRow c).2.2 := by
  have hd := hs.draft_addTerms c
  have hm := made_addMarkers hd c
  have ht := s.drafts_addTerms c
  rw [createRow_eq]
  dsimp only
  refine ⟨ht.trans hm.drafts, hm.ledger, ?_, hm.fits, hm.parametric, ?_, hm.distinct⟩
  · split
    · exact hm.admits.negate
    · exact hm.admits
  · intro x hx
    exact Nat.le_trans ht.tableau.symbolCount_le (hm.fresh x hx)

/-- Afterwards every variable that the constraint refers to is known. -/
theorem contains_createRow (hs : s.Ledger) {c : Constraint α} {t : Term α}
    (ht : t ∈ c.expression.terms) (hz : Scalar.nearZero t.coefficient = false) :
    (s.createRow c).2.2.unknowns.contains t.unknown = true := by
  have hd := hs.draft_ofConstant c.expression.constant
  rw [createRow_eq]
  exact (drafts_addMarkers _ _ c).contains ((hd.foldl_addTerm c.expression.terms).2 t ht hz)

end Markers

end Solver
end Tether
