import Tether.Proofs.Drift.Misfits
import Tether.Proofs.Solver.LedgerDrafting

/-!
# What is lost while a row is made

The row of a required equality is its expression with the rows of the basic variables put
in, and its marker.  Each term loses what inserting its cells drops; the marker is new, so
it is kept.  Whatever cells are left in the row are not zero.
-/

namespace Tether
namespace Solver

open Simplex

variable {s u : Solver Coarse} {r : Row Coarse} {c : Constraint Coarse} {σ : Symbol → Rat}
  {v : Variable} {draft : Row Coarse × Solver Coarse} {M : Rat}

section Padding

theorem Drafts.meets_iff (h : Drafts s u) : u.tableau.Meets σ ↔ s.tableau.Meets σ := by
  simp only [Tableau.Meets, h.tableau.mem_basics_iff]

/-- The variables that were known keep their symbols. -/
theorem Drafts.symbol?_eq (h : Drafts s u) (hv : s.unknowns.contains v = true) :
    u.symbol? v = s.symbol? v := by
  obtain ⟨rest, hrest⟩ := h.unknowns
  have hsome : (s.unknowns.get? v).isSome = true := by rwa [OrderedMap.isSome_get?]
  have hget : u.unknowns.get? v = s.unknowns.get? v := by
    unfold OrderedMap.get? OrderedMap.find? at hsome ⊢
    rw [← hrest, List.find?_append]
    cases hf : s.unknowns.entries.find? (fun e => e.1 == v) with
    | none => simp [hf] at hsome
    | some e => rfl
  rw [symbol?, symbol?, hget]

theorem reading_symbolOf (s : Solver Coarse) (v : Variable) (σ : Symbol → Rat) :
    (s.symbolOf v).2.reading σ v = σ (s.symbolOf v).1 := by
  obtain ⟨entry, hentry, hx⟩ := get?_symbolOf s v
  rw [reading, symbol?, hentry, ← hx]
  rfl

end Padding

section Terms

/-- A term adds what it stands for, but for the cells that are dropped. -/
theorem abs_eval_addTerm_le (h : Draft draft) (hb : Row.Bounded M σ)
    (hσ : draft.2.tableau.Meets σ) {t : Term Coarse}
    (ht : Scalar.nearZero t.coefficient = false) :
    |(addTerm draft t).1.exact.eval σ - (draft.1.exact.eval σ +
      t.coefficient.value * (addTerm draft t).2.reading σ t.unknown)| ≤
        (addTerm draft t).2.tableau.symbolCount * (Coarse.epsilon * M) := by
  obtain ⟨hl, hk⟩ := h.1.symbolOf t.unknown
  have hd := drafts_symbolOf draft.2 t.unknown
  have hM : 0 ≤ M := (abs_nonneg _).trans (hb (draft.2.symbolOf t.unknown).1)
  have hε := Coarse.epsilon_pos
  unfold Solver.addTerm
  rw [if_neg (by rw [ht]; exact Bool.false_ne_true)]
  dsimp only
  split
  · rename_i q hrow
    have hmem := Tableau.mem_basics_iff.mpr ⟨hk, hrow⟩
    have heq : σ (draft.2.symbolOf t.unknown).1 = q.exact.eval σ := hd.meets_iff.mpr hσ _ hmem
    rw [reading_symbolOf, heq, mul_comm]
    refine (Row.abs_eval_addRow_le hb draft.1 q t.coefficient).trans ?_
    have hlength : (q.cells.length : Rat) ≤ (draft.2.symbolOf t.unknown).2.tableau.symbolCount :=
      Nat.cast_le.mpr (hl.proper.rows.admits_coarse hmem).length_le
    gcongr
  · rw [reading_symbolOf]
    refine (Row.abs_eval_insert_le σ draft.1 _ t.coefficient).trans ?_
    have hone : (1 : Rat) ≤ (draft.2.symbolOf t.unknown).2.tableau.symbolCount :=
      Nat.one_le_cast.mpr (Nat.lt_of_le_of_lt (Nat.zero_le _) hk.id_lt)
    refine (mul_le_mul_of_nonneg_left (hb _) hε.le).trans ?_
    exact le_mul_of_one_le_left (by positivity) hone

/-- Terms add what they stand for, but for the cells that are dropped. -/
theorem abs_eval_foldl_addTerm_le (h : Draft draft) (hb : Row.Bounded M σ)
    (hσ : draft.2.tableau.Meets σ) {terms : List (Term Coarse)}
    (ht : ∀ t ∈ terms, Scalar.nearZero t.coefficient = false) :
    |(terms.foldl addTerm draft).1.exact.eval σ - (draft.1.exact.eval σ +
      Expression.sumTerms ((terms.foldl addTerm draft).2.reading σ)
        (terms.map (fun t => (⟨t.unknown, t.coefficient.value, t.isConstant⟩ : Term Rat))))| ≤
          terms.length * ((terms.foldl addTerm draft).2.tableau.symbolCount *
            (Coarse.epsilon * M)) := by
  induction terms generalizing draft with
  | nil => simp [Expression.sumTerms, Scalar.zero, Scalar.ofNat]
  | cons t rest ih =>
      have hone := abs_eval_addTerm_le h hb hσ (ht t (by simp))
      have hrest := ih (h.addTerm t) ((drafts_addTerm draft t).meets_iff.mpr hσ)
        (fun u hu => ht u (List.mem_cons_of_mem t hu))
      have hd := drafts_foldl_addTerm rest (addTerm draft t)
      -- the variable of the term keeps its symbol
      have hreading : (rest.foldl addTerm (addTerm draft t)).2.reading σ t.unknown =
          (addTerm draft t).2.reading σ t.unknown :=
        reading_congr (hd.symbol?_eq (contains_addTerm draft (ht t (by simp))))
      have hM : 0 ≤ M := (abs_nonneg _).trans (hb ⟨0, .dummy⟩)
      have hε := Coarse.epsilon_pos
      have hcount : ((addTerm draft t).2.tableau.symbolCount : Rat) ≤
          (rest.foldl addTerm (addTerm draft t)).2.tableau.symbolCount :=
        Nat.cast_le.mpr hd.tableau.symbolCount_le
      have hmore : ((addTerm draft t).2.tableau.symbolCount : Rat) * (Coarse.epsilon * M) ≤
          (rest.foldl addTerm (addTerm draft t)).2.tableau.symbolCount *
            (Coarse.epsilon * M) := by
        gcongr
      have hsum : ∀ ν : Variable → Rat, Expression.sumTerms ν ((t :: rest).map
          (fun t => (⟨t.unknown, t.coefficient.value, t.isConstant⟩ : Term Rat))) =
            t.coefficient.value * ν t.unknown + Expression.sumTerms ν (rest.map
              (fun t => (⟨t.unknown, t.coefficient.value, t.isConstant⟩ : Term Rat))) :=
        fun _ => rfl
      rw [List.foldl_cons, List.length_cons, Nat.cast_succ, add_one_mul, hsum, hreading]
      refine le_trans (le_of_eq (congrArg _ ?_))
        ((abs_add_le _ _).trans (add_le_add hrest (hone.trans hmore)))
      ring

end Terms

section Solidity

theorem solid_foldl_addTerm (terms : List (Term Coarse)) (h : draft.1.Solid) :
    (terms.foldl addTerm draft).1.Solid := by
  refine List.foldlRecOn (motive := fun d : Row Coarse × Solver Coarse => d.1.Solid) terms
    addTerm h (fun d hd t _ => ?_)
  unfold Solver.addTerm
  split
  · exact hd
  · dsimp only
    split
    · exact hd.addRow _ _
    · exact hd.insert _ _

theorem solid_addSlack (h : r.Solid) (s : Solver Coarse) (strength : Strength Coarse)
    (x : Coarse) : (addSlack r s strength x).1.Solid := by
  unfold addSlack
  dsimp only
  split
  · exact h.insert _ _
  · exact (h.insert _ _).insert _ _

theorem solid_addErrors (h : r.Solid) (s : Solver Coarse) (strength : Strength Coarse) :
    (addErrors r s strength).1.Solid := by
  unfold addErrors
  split
  · exact h.insert _ _
  · exact (h.insert _ _).insert _ _

/-- The row of a constraint has no cells that are zero. -/
theorem solid_createRow (s : Solver Coarse) (c : Constraint Coarse) :
    (s.createRow c).1.Solid := by
  have hterms : (s.addTerms c).1.Solid :=
    solid_foldl_addTerm c.expression.terms (Row.solid_ofConstant _)
  have hmade : (addMarkers (s.addTerms c).1 (s.addTerms c).2 c).1.Solid := by
    unfold addMarkers
    split
    · exact solid_addSlack hterms _ _ _
    · exact solid_addSlack hterms _ _ _
    · exact solid_addErrors hterms _ _
  rw [createRow_eq]
  dsimp only
  split
  · exact hmade.negate
  · exact hmade

end Solidity

section Equalities

/-- A new symbol is inserted without loss. -/
theorem exact_insert_new {t : Tableau Coarse} (h : t.Admits r) (kind : SymbolKind) :
    (t.newSymbol kind).1 ∉ r.symbols ∧ (r.insert (t.newSymbol kind).1 Scalar.one).exact =
      r.exact.insert (t.newSymbol kind).1 1 := by
  have hnot : (t.newSymbol kind).1 ∉ r.symbols :=
    fun hm => Nat.lt_irrefl _ (h.parametric _ hm).1.id_lt
  refine ⟨hnot, Row.exact_insert h.ordered ?_⟩
  rw [Row.coefficient, Row.get?_eq_none_iff.mpr hnot, Option.getD_none]
  unfold Row.Clean
  decide +kernel

/-- The row of a required equality is that of its terms with its marker, or that with the
other sign. -/
theorem createRow_of_equality (hs : s.Ledger) (hc : c.strength.isRequired = true)
    (he : c.relation = .equalTo) :
    (s.createRow c).2 = (⟨((s.addTerms c).2.newSymbol .dummy).1, none⟩,
      ((s.addTerms c).2.newSymbol .dummy).2) ∧
    ((s.createRow c).1.exact =
        (s.addTerms c).1.exact.insert ((s.addTerms c).2.newSymbol .dummy).1 1 ∨
      (s.createRow c).1.exact =
        ((s.addTerms c).1.exact.insert ((s.addTerms c).2.newSymbol .dummy).1 1).negate) := by
  have hdraft := hs.draft_addTerms c
  have hmade : addMarkers (s.addTerms c).1 (s.addTerms c).2 c =
      ((s.addTerms c).1.insert ((s.addTerms c).2.newSymbol .dummy).1 Scalar.one,
        ⟨((s.addTerms c).2.newSymbol .dummy).1, none⟩,
        ((s.addTerms c).2.newSymbol .dummy).2) := by
    unfold addMarkers addErrors
    rw [he]
    dsimp only
    rw [if_pos hc]
  have hexact : ((s.addTerms c).1.insert ((s.addTerms c).2.newSymbol .dummy).1
      Scalar.one).exact = _ := (exact_insert_new hdraft.2 .dummy).2
  rw [createRow_eq]
  dsimp only
  rw [hmade]
  refine ⟨rfl, ?_⟩
  rw [← show _ = (s.addTerms c).1.exact.insert ((s.addTerms c).2.newSymbol .dummy).1 1 from hexact]
  split
  · exact Or.inr Row.exact_negate
  · exact Or.inl rfl

/-- The marker of a required equality has the coefficient one, or minus one. -/
theorem abs_coefficient_marker (hs : s.Ledger) (hc : c.strength.isRequired = true)
    (he : c.relation = .equalTo) :
    |(s.createRow c).1.exact.coefficient (s.createRow c).2.1.marker| = 1 := by
  have hdraft := hs.draft_addTerms c
  have hordered := hdraft.2.ordered.exact
  have hnot : ((s.addTerms c).2.newSymbol .dummy).1 ∉ (s.addTerms c).1.exact.symbols := by
    rw [Row.symbols_exact]
    exact (exact_insert_new hdraft.2 .dummy).1
  have hone : ((s.addTerms c).1.exact.insert ((s.addTerms c).2.newSymbol .dummy).1 1).coefficient
      ((s.addTerms c).2.newSymbol .dummy).1 = 1 := by
    rw [Row.coefficient_insert hordered, if_pos rfl, Row.coefficient_of_notMem hnot, zero_add]
  obtain ⟨hmade, hsign⟩ := createRow_of_equality hs hc he
  rw [hmade]
  rcases hsign with hsign | hsign
  · rw [hsign, hone, abs_one]
  · rw [hsign, Row.coefficient_negate (Row.ordered_insert hordered _ 1), hone, abs_neg, abs_one]

theorem coefficient_marker_ne_zero (hs : s.Ledger) (hc : c.strength.isRequired = true)
    (he : c.relation = .equalTo) :
    (s.createRow c).1.exact.coefficient (s.createRow c).2.1.marker ≠ 0 := by
  intro hzero
  have hone := abs_coefficient_marker hs hc he
  rw [hzero, abs_zero] at hone
  exact zero_ne_one hone

/-- The misfit of a required equality is the value of its row, but for a sign and the cells
that are dropped while the row is made. -/
theorem abs_misfit_createRow_le (hs : s.Ledger) (hc : c.Binding) (hb : Row.Bounded M σ)
    (hσ : s.tableau.Meets σ) :
    |(s.createRow c).2.2.misfit σ (c, (s.createRow c).2.1)| ≤
      |(s.createRow c).1.exact.eval σ| + c.expression.terms.length *
        ((s.createRow c).2.2.tableau.symbolCount * (Coarse.epsilon * M)) := by
  have hstart := hs.draft_ofConstant c.expression.constant
  have hterms := abs_eval_foldl_addTerm_le hstart hb hσ hc.kept
  have hd := drafts_newSymbol (s.addTerms c).2 .dummy
  obtain ⟨hmade, hsign⟩ := createRow_of_equality hs hc.required hc.equality
  have habs : |(s.createRow c).1.exact.eval σ| =
      |(s.addTerms c).1.exact.eval σ + σ ((s.addTerms c).2.newSymbol .dummy).1| := by
    rcases hsign with hsign | hsign
    · rw [hsign, Row.eval_insert, one_mul]
    · rw [hsign, Row.eval_negate, abs_neg, Row.eval_insert, one_mul]
  have hconst : (Row.ofConstant c.expression.constant).exact.eval σ =
      c.expression.constant.value := add_zero _
  have hmisfit : (s.createRow c).2.2.misfit σ (c, (s.createRow c).2.1) =
      c.expression.exact.eval ((s.addTerms c).2.reading σ) +
        σ ((s.addTerms c).2.newSymbol .dummy).1 := by
    rw [hmade]
    rfl
  have hM : 0 ≤ M := (abs_nonneg _).trans (hb ((s.addTerms c).2.newSymbol .dummy).1)
  have hε := Coarse.epsilon_pos
  have hcount : ((s.addTerms c).2.tableau.symbolCount : Rat) ≤
      (s.createRow c).2.2.tableau.symbolCount := by
    rw [hmade]
    exact Nat.cast_le.mpr hd.tableau.symbolCount_le
  have hmore : (c.expression.terms.length : Rat) *
      ((s.addTerms c).2.tableau.symbolCount * (Coarse.epsilon * M)) ≤
        c.expression.terms.length *
          ((s.createRow c).2.2.tableau.symbolCount * (Coarse.epsilon * M)) := by
    gcongr
  have heval : c.expression.exact.eval ((s.addTerms c).2.reading σ) =
      c.expression.constant.value + Expression.sumTerms ((s.addTerms c).2.reading σ)
        (c.expression.terms.map
          (fun t => (⟨t.unknown, t.coefficient.value, t.isConstant⟩ : Term Rat))) :=
    add_comm _ _
  rw [hmisfit, habs, heval]
  rw [hconst] at hterms
  refine le_trans (le_of_eq (congrArg _ ?_)) ((abs_sub _ _).trans
    (add_le_add (le_refl _) (hterms.trans hmore)))
  unfold addTerms
  ring

end Equalities

end Solver
end Tether
