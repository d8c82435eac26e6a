import Tether.Proofs.Solver.LedgerDrafting

/-!
# Insertion keeps the books

Adding a constraint keeps the ledger in order, whatever the answer is.  If the
answer is that it was added, then it stands last among the installed ones,
with a fitting tag of new symbols.
-/

namespace Tether
namespace Solver

open Simplex

variable {α : Type}

section Hosting

variable {s : Solver α}

/-- A row may be hosted by a new symbol. -/
theorem Proper.host (h : s.Proper) {r : Row α} (hr : s.tableau.Admits r)
    (kind : SymbolKind) :
    Proper { (s.newSymbol kind).2 with
      tableau := (s.newSymbol kind).2.tableau.insert (s.newSymbol kind).1 r
      artificial := some r } := by
  have hadmits : ∀ q, s.tableau.Admits q →
      ((s.newSymbol kind).2.tableau.insert (s.newSymbol kind).1 r).Admits q := by
    intro q hq
    refine hq.of_parametric (fun y _ hy => (hy.newSymbol kind).insert ?_ ?_ r)
    · exact Tableau.knows_newSymbol s.tableau kind
    · rintro rfl
      exact Nat.lt_irrefl _ hy.1.id_lt
  refine ⟨?_, hadmits _ h.objective, ?_, ?_⟩
  · intro id q hq
    rw [Tableau.rowAt?_insert] at hq
    split at hq
    · cases hq
      exact hadmits r hr
    · exact hadmits q (h.rows id q (Tableau.rowAt?_newSymbol s.tableau kind id ▸ hq))
  · intro q hq
    cases hq
    exact hadmits r hr
  · intro x hx
    unfold Tableau.Knows
    rw [Tableau.kindAt?_insert]
    exact (h.infeasible x hx).newSymbol kind

/-- The solver in which a new symbol hosts a row, which is also to be lowered. -/
def host (s : Solver α) (r : Row α) : Solver α :=
  { (s.newSymbol .slack).2 with
    tableau := (s.newSymbol .slack).2.tableau.insert (s.newSymbol .slack).1 r
    artificial := some r }

theorem not_knows_newSymbol (s : Solver α) : ¬ s.tableau.Knows (s.newSymbol .slack).1 :=
  fun h => Nat.lt_irrefl _ h.id_lt

theorem knows_host (s : Solver α) (r : Row α) :
    (s.host r).tableau.Knows (s.newSymbol .slack).1 :=
  Tableau.knows_insert.mpr (Tableau.knows_newSymbol s.tableau .slack)

theorem mem_basics_host {r : Row α} {b : Symbol × Row α} :
    b ∈ (s.host r).tableau.basics ↔ b = ((s.newSymbol .slack).1, r) ∨ b ∈ s.tableau.basics := by
  refine (Tableau.mem_basics_insert (Tableau.knows_newSymbol s.tableau .slack)).trans ?_
  rw [(Tableau.pads_newSymbol s.tableau .slack).mem_basics_iff]
  refine or_congr_right (and_iff_right_of_imp (fun hb => ?_))
  exact fun he => not_knows_newSymbol s (he ▸ (Tableau.mem_basics_iff.mp hb).1)

theorem Proper.withArtificial (h : s.Proper) : Proper { s with artificial := none } :=
  ⟨h.rows, h.objective, by simp, h.infeasible⟩

/-- Journals do not matter to the solved form. -/
theorem Proper.withJournal (h : s.Proper) (j : Option (Journal α)) :
    Proper { s with tableau := { s.tableau with journal := j } } where
  rows := fun id r hr => (h.rows id r hr).of_parametric (fun _ _ hy => hy)
  objective := h.objective.of_parametric (fun _ _ hy => hy)
  artificial := fun r hr => (h.artificial r hr).of_parametric (fun _ _ hy => hy)
  infeasible := h.infeasible

theorem Proper.withMark (h : s.Proper) (mark : Bool) :
    Proper { s with tableau := { s.tableau with faulted := mark } } where
  rows := fun id r hr => (h.rows id r hr).of_parametric (fun _ _ hy => hy)
  objective := h.objective.of_parametric (fun _ _ hy => hy)
  artificial := fun r hr => (h.artificial r hr).of_parametric (fun _ _ hy => hy)
  infeasible := h.infeasible

theorem rowAt?_dropArtificial (s : Solver α) (x : Symbol) (id : Nat) :
    (s.dropArtificial x).tableau.rowAt? id =
      (s.tableau.rowAt? id).map (fun r => r.erase x) :=
  Tableau.rowAt?_modifyMentioning s.tableau x (fun _ h => Row.erase_of_notMem h) id

theorem mem_symbols_of_firstPivotable? {r : Row α} {x : Symbol}
    (h : r.firstPivotable? = some x) : x ∈ r.symbols ∧ x.isPivotable = true := by
  obtain ⟨c, hc, rfl⟩ := Option.map_eq_some_iff.mp h
  exact ⟨Row.mem_symbols_iff.mpr ⟨c.2, List.mem_of_find?_eq_some hc⟩,
    by simpa using List.find?_some hc⟩

end Hosting

section RowWork

theorem rowStable_knows [Scalar α] (x : Symbol) :
    RowStable (fun s : Solver α => s.tableau.Knows x) where
  dropRow := fun _ _ h => knows_dropRow.mpr h
  enter := fun _ _ _ h => knows_enter.mpr h
  dropArtificial := fun s y h => by
    unfold Tableau.Knows dropArtificial
    rw [Tableau.kindAt?_modifyMentioning]
    exact h

variable [Scalar α]

/-- The primal loop keeps a ledger in order. -/
theorem Ledger.optimize {s : Solver α} (h : s.Ledger) (goal : Goal) (limit : Nat) :
    Ensures (s.optimize goal limit) (fun p => p.1.Ledger ∧ p.1.books = s.books ∧
      ∀ x, s.tableau.Knows x → p.1.tableau.Knows x) := by
  intro p hp
  have hproper := proper_optimize goal limit h.proper p hp
  have hbooks := (rowStable_books s).optimize rfl goal limit p hp
  have hknows : ∀ x, s.tableau.Knows x → p.1.tableau.Knows x :=
    fun x hx => (rowStable_knows x).optimize hx goal limit p hp
  exact ⟨h.of_books hproper hbooks hknows, hbooks, hknows⟩

theorem Ledger.reoptimize {ε : Type} {s : Solver α} (h : s.Ledger) (limit : Nat)
    (internal : String → ε) :
    Ensures (reoptimize limit internal s) (fun p => p.1.Ledger ∧ p.1.books = s.books) := by
  refine ensures_reoptimize ((h.optimize .primary limit).mono ?_)
  rintro p ⟨hl, hb, -⟩
  refine ⟨fun _ => ⟨?_, hb⟩, fun _ _ => ⟨hl, hb⟩⟩
  exact hl.of_books (hl.proper.withInfeasible (by simp)) rfl (fun _ hx => hx)

end RowWork

variable [Scalar α] {s : Solver α}

section Probing

theorem Proper.dropArtificial (h : s.Proper) (x : Symbol) : (s.dropArtificial x).Proper := by
  have hp : ∀ y, s.tableau.Parametric y → (s.dropArtificial x).tableau.Parametric y := by
    intro y hy
    refine ⟨(rowStable_knows y).dropArtificial s x hy.1, ?_⟩
    rw [Tableau.row?, rowAt?_dropArtificial, Option.map_eq_none_iff]
    exact hy.2
  refine ⟨?_, (h.objective.erase x).of_parametric (fun y _ => hp y),
    fun r hr => (h.artificial r hr).of_parametric (fun y _ => hp y),
    fun y hy => (rowStable_knows y).dropArtificial s x (h.infeasible y hy)⟩
  intro id r hr
  rw [rowAt?_dropArtificial] at hr
  obtain ⟨q, hq, rfl⟩ := Option.map_eq_some_iff.mp hr
  exact ((h.rows id q hq).erase x).of_parametric (fun y _ => hp y)

theorem Proper.settleProbe (h : s.Proper) {artificial : Symbol}
    (ha : s.tableau.Knows artificial) (success : Bool) :
    (s.settleProbe artificial success).2.Proper := by
  unfold Solver.settleProbe
  split
  · exact h.dropArtificial artificial
  · rename_i r hr
    dsimp only
    split
    · exact h.dropRow artificial
    · split
      · exact h.dropRow artificial
      · rename_i entering he
        have hp := (h.rows _ r hr).parametric _ (mem_symbols_of_firstPivotable? he).1
        exact (h.pivot ha hr hp.1).dropArtificial artificial

theorem Ledger.host (h : s.Ledger) {r : Row α} (hr : s.tableau.Admits r) : (s.host r).Ledger :=
  h.of_books (h.proper.host hr .slack) rfl
    (fun _ hx => Tableau.knows_insert.mpr (hx.newSymbol .slack))

theorem Ledger.probe (h : s.Ledger) {r : Row α} (hr : s.tableau.Admits r) (limit : Nat) :
    Ensures (probe limit s r) (fun p => p.1.Ledger) := by
  unfold Solver.probe
  refine Ensures.map (((h.host hr).optimize .artificial limit).mono ?_)
  rintro ⟨s', answer⟩ ⟨hl', hb, hk'⟩
  cases answer with
  | error why => exact hl'
  | ok u =>
      have hl₀ : Ledger { s' with artificial := none } :=
        hl'.of_books hl'.proper.withArtificial rfl (fun _ hx => hx)
      exact hl₀.of_books (hl₀.proper.settleProbe (hk' _ (knows_host s r)) _)
        ((rowStable_books _).settleProbe rfl _ _)
        (fun x hx => (rowStable_knows x).settleProbe hx _ _)

/-- Forgetting the variables of a draft keeps the ledger in order. -/
theorem Ledger.forgetAfter {u : Solver α} (h : u.Ledger) (hs : s.Ledger) (hd : Drafts s u) :
    (u.forgetAfter s.unknowns.size).Ledger := by
  have hk := hd.unknowns_forgetAfter
  have huses : (u.forgetAfter s.unknowns.size).uses = s.uses := by
    funext v
    simp only [uses, Solver.forgetAfter, hd.constraints]
  refine ⟨h.proper.of_rows rfl rfl rfl rfl, h.tagged, ?_, h.held⟩
  rw [hk, huses]
  exact hs.counted.mono (fun x hx => hd.tableau.knows hx)

/-- Undoing a probe keeps the ledger in order. -/
theorem Ledger.undoProbe {u p : Solver α} (h : u.Ledger) (hs : s.Ledger) (hd : Drafts s u)
    (ht : p.tableau.Recalls u.tableau) (hb : p.books = u.books) :
    (p.undoProbe u.objective s.unknowns.size).Ledger := by
  have hf := h.forgetAfter hs hd
  simp only [books, Prod.mk.injEq] at hb
  obtain ⟨hsettings, hconstraints, hunknowns, hedits⟩ := hb
  have hback : p.undoProbe u.objective s.unknowns.size =
      { u.forgetAfter s.unknowns.size with
        tableau := { u.tableau with journal := none, faulted := p.tableau.faulted }
        artificial := none
        infeasible := [] } := by
    simp only [Solver.undoProbe, Solver.forgetAfter, ht.rollback_eq, hsettings, hconstraints,
      hunknowns, hedits]
  rw [hback]
  have hp := ((h.proper.withJournal none).withMark p.tableau.faulted).withArtificial.withInfeasible
    (l := []) (by simp)
  exact hf.of_books (hp.of_rows rfl rfl rfl rfl) rfl (fun _ hx => hx)

end Probing

section Installing

/-- The solver with a constraint on the list and its references counted. -/
def enlist (s : Solver α) (c : Constraint α) (tag : Tag) : Solver α :=
  { s.retainVariables c with constraints := s.constraints.insert c tag }

/-- A constraint may be put on the list once its row is in the tableau. -/
theorem Ledger.enlist {u : Solver α} (h : u.Ledger) {c : Constraint α} {tag : Tag}
    (hc : u.hasConstraint c = false) (hf : tag.Fits c)
    (hk : ∀ x ∈ tag.symbols, u.tableau.Knows x) (hn : tag.symbols.Nodup)
    (hd : ∀ e ∈ u.constraints.entries, ∀ x ∈ e.2.symbols, x ∉ tag.symbols)
    (hv : ∀ t ∈ c.expression.terms, Scalar.nearZero t.coefficient = false →
      u.unknowns.contains t.unknown = true) : (u.enlist c tag).Ledger := by
  have he := OrderedMap.entries_insert_of_not_contains hc tag
  have huses : (u.enlist c tag).uses =
      fun v => u.uses v + c.expression.terms.countP (·.refersTo v) := by
    funext v
    simp [Solver.uses, Solver.enlist, OrderedMap.keys, he]
  refine ⟨h.proper.of_rows rfl rfl rfl rfl, ?_, ?_,
    h.held.mono (fun e hm => he ▸ List.mem_append_left _ hm)⟩
  · show Tagged _ (u.constraints.insert c tag).entries
    rw [he]
    refine h.tagged.append hf hk hn hd (fun e hm => ?_)
    have := List.any_eq_false.mp hc e hm
    simpa using this
  · rw [huses]
    exact Counted.foldl_retain h.counted hv

theorem Ledger.install {u : Solver α} {c : Constraint α} {tag : Tag}
    (h : (u.enlist c tag).Ledger) (limit : Nat) :
    Ensures (install limit u c tag) (fun p => p.1.Ledger ∧ p.1.settings = u.settings ∧
      p.1.edits = u.edits ∧ p.1.constraints = u.constraints.insert c tag) := by
  refine (h.reoptimize limit AddError.internal).mono ?_
  rintro ⟨s', answer⟩ ⟨hl, hb⟩
  simp only [books, Prod.mk.injEq] at hb
  exact ⟨hl, hb.1, hb.2.2.2, hb.2.1⟩

end Installing

section Adding

/-- What an addition leaves behind, whatever the answer is. -/
def Added (s : Solver α) (c : Constraint α) (p : Solver α × Except AddError Unit) : Prop :=
  p.1.Ledger ∧ p.1.settings = s.settings ∧ p.1.edits = s.edits ∧
    (p.2 = .ok () → ∃ tag, p.1.constraints.entries = s.constraints.entries ++ [(c, tag)])

variable {c : Constraint α} {r : Row α} {tag : Tag} {u : Solver α}

/-- What was made for a constraint may be put on the list, whatever rows have
been worked on since. -/
theorem Made.ledger_enlist (hm : Made s c r tag u) (hs : s.Ledger)
    (hc : s.hasConstraint c = false)
    (hv : ∀ t ∈ c.expression.terms, Scalar.nearZero t.coefficient = false →
      u.unknowns.contains t.unknown = true)
    {p : Solver α} (hp : p.Ledger) (hb : p.books = u.books)
    (hk : ∀ x, u.tableau.Knows x → p.tableau.Knows x) :
    (p.enlist c tag).Ledger ∧
      (p.constraints.insert c tag).entries = s.constraints.entries ++ [(c, tag)] := by
  simp only [books, Prod.mk.injEq] at hb
  obtain ⟨hsettings, hconstraints, hunknowns, hedits⟩ := hb
  have hlist : p.constraints = s.constraints := hconstraints.trans hm.drafts.constraints
  have hnot : p.hasConstraint c = false := by
    unfold hasConstraint
    rw [hlist]
    exact hc
  refine ⟨hp.enlist hnot hm.fits (fun x hx => hk x (hm.parametric x hx).1) hm.distinct ?_ ?_, ?_⟩
  · intro e he x hx hxt
    rw [hlist] at he
    exact Nat.not_le_of_lt (hs.tagged.knows e he x hx).id_lt (hm.fresh x hxt)
  · rw [hunknowns]
    exact hv
  · rw [← hlist]
    exact OrderedMap.entries_insert_of_not_contains hnot tag

/-- Installing is in order for what was made for a constraint. -/
theorem Made.added_install (hm : Made s c r tag u) (hs : s.Ledger)
    (hc : s.hasConstraint c = false)
    (hv : ∀ t ∈ c.expression.terms, Scalar.nearZero t.coefficient = false →
      u.unknowns.contains t.unknown = true)
    {p : Solver α} (hp : p.Ledger) (hb : p.books = u.books)
    (hk : ∀ x, u.tableau.Knows x → p.tableau.Knows x) (limit : Nat) :
    Ensures (install limit p c tag) (Added s c) := by
  obtain ⟨hl, hins⟩ := hm.ledger_enlist hs hc hv hp hb hk
  simp only [books, Prod.mk.injEq] at hb
  obtain ⟨hsettings, hconstraints, hunknowns, hedits⟩ := hb
  refine (hl.install limit).mono ?_
  rintro ⟨s', answer⟩ ⟨hl', h₁, h₂, h₃⟩
  refine ⟨hl', ?_, ?_, fun _ => ⟨tag, ?_⟩⟩
  · exact h₁.trans (hsettings.trans hm.drafts.settings)
  · exact h₂.trans (hedits.trans hm.drafts.edits)
  · exact (congrArg OrderedMap.entries h₃).trans hins

/-- The subject of a row has a cell in it, or is free to be solved for. -/
theorem subject?_mem_or_free {r : Row α} {tag : Tag} {x : Symbol}
    (h : subject? r tag = some x) :
    x ∈ r.symbols ∨ x ∈ tag.symbols ∧ isFreeSubject r x = true := by
  obtain ⟨c, hc, rfl⟩ := Option.map_eq_some_iff.mp h
  rcases Option.or_eq_some_iff.mp hc with hc | ⟨-, hc⟩
  · have hm := List.mem_of_mem_filter (List.mem_of_find?_eq_some hc)
    exact Or.inl (Row.mem_symbols_iff.mpr ⟨c.2, hm⟩)
  · rcases Option.or_eq_some_iff.mp hc with hc | ⟨-, hc⟩
    · have hm := List.mem_of_mem_filter (List.mem_of_mem_head? hc)
      exact Or.inl (Row.mem_symbols_iff.mpr ⟨c.2, hm⟩)
    · obtain ⟨y, hy, rfl⟩ := Option.map_eq_some_iff.mp hc
      exact Or.inr ⟨List.mem_of_find?_eq_some hy, List.find?_some hy⟩

theorem subject?_mem {r : Row α} {tag : Tag} {x : Symbol} (h : subject? r tag = some x) :
    x ∈ r.symbols ∨ x ∈ tag.symbols :=
  (subject?_mem_or_free h).imp id And.left

/-- The subject of a new row may enter. -/
theorem Made.ledger_enter (hm : Made s c r tag u) {x : Symbol}
    (hx : x ∈ r.symbols ∨ x ∈ tag.symbols) : (u.enter x (r.solveFor x)).Ledger := by
  have hp : u.tableau.Parametric x := hx.elim (hm.admits.parametric x) (hm.parametric x)
  refine hm.ledger.of_books (hm.ledger.proper.enter hp.1 (hm.admits.solveFor x) ?_) rfl
    (fun _ hy => knows_enter.mpr hy)
  rw [Row.symbols_solveFor]
  exact hm.admits.ordered.notMem_symbols_erase x

/-- A draft may be probed under a journal. -/
theorem Made.ledger_openJournal (hm : Made s c r tag u) :
    Ledger { u with tableau := u.tableau.openJournal } ∧ u.tableau.openJournal.Admits r :=
  ⟨hm.ledger.of_books (hm.ledger.proper.withJournal u.tableau.openJournal.journal) rfl
    (fun _ hx => hx), hm.admits.of_parametric (fun _ _ hy => hy)⟩

/-- A probe whose changes are kept leaves the books as they were. -/
theorem Made.ledger_keepProbe (hm : Made s c r tag u) {limit : Nat} {w : Solver α}
    {answer : Except Breakdown Bool}
    (hw : probe limit { u with tableau := u.tableau.openJournal } r = .ok (w, answer)) :
    w.keepProbe.Ledger ∧ w.keepProbe.books = u.books ∧
      ∀ x, u.tableau.Knows x → w.keepProbe.tableau.Knows x := by
  obtain ⟨hjournal, hr⟩ := hm.ledger_openJournal
  have hl := hjournal.probe hr limit _ hw
  refine ⟨hl.of_books (hl.proper.withJournal none) rfl (fun _ hx => hx),
    (ensures_probe_recalls limit u r _ hw).2, fun x hx => ?_⟩
  refine ensures_probe (rowStable_knows x) (fun _ _ h => h) limit ?_ _ hw
  exact Tableau.knows_insert.mpr (hx.newSymbol .slack)

theorem Made.added_installByProbe (hm : Made s c r tag u) (hs : s.Ledger)
    (hc : s.hasConstraint c = false)
    (hv : ∀ t ∈ c.expression.terms, Scalar.nearZero t.coefficient = false →
      u.unknowns.contains t.unknown = true) (limit : Nat) :
    Ensures (installByProbe limit u s.unknowns.size c r tag) (Added s c) := by
  refine ensures_installByProbe (fun p hp => ?_)
  obtain ⟨hkeep, hbooks, hknows⟩ := hm.ledger_keepProbe hp
  have hb := hbooks
  simp only [books, Prod.mk.injEq] at hb
  have hsettings := hb.1.trans hm.drafts.settings
  have hedits := hb.2.2.2.trans hm.drafts.edits
  refine ⟨fun _ => ?_, fun _ => ⟨?_, hsettings, hedits, by simp⟩,
    fun why _ => ⟨hkeep, hsettings, hedits, by simp⟩⟩
  · exact hm.added_install hs hc hv hkeep hbooks hknows limit
  · exact hm.ledger.undoProbe hs hm.drafts (ensures_probe_recalls limit u r _ hp).1 hbooks

/-- Adding a constraint keeps the ledger in order, whatever the answer is. -/
theorem Ledger.add (hs : s.Ledger) (limit : Nat) (c : Constraint α) :
    Ensures (s.add limit c) (Added s c) := by
  have hm := made_createRow hs c
  have hv := fun t ht hz => contains_createRow hs (c := c) (t := t) ht hz
  refine ensures_add (fun _ => ⟨hs, rfl, rfl, by simp⟩) (fun hc x hx => ?_)
    (fun hc _ _ => hm.added_installByProbe hs hc hv limit) (fun hc _ _ => ?_)
    (fun _ _ _ _ => ⟨hm.ledger.forgetAfter hs hm.drafts, hm.drafts.settings,
      hm.drafts.edits, by simp⟩)
  · exact hm.added_install hs hc hv (hm.ledger_enter (subject?_mem hx)) (books_enter _ _ _)
      (fun _ hy => knows_enter.mpr hy) limit
  · exact hm.added_install hs hc hv (hm.ledger_enter (Or.inr (by simp [Tag.symbols])))
      (books_enter _ _ _) (fun _ hy => knows_enter.mpr hy) limit

end Adding

end Solver
end Tether
