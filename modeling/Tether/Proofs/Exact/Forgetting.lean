import Tether.Proofs.Exact.Primal
import Tether.Proofs.Solver.LedgerRemoval

/-!
# Taking a marker out

Without its marker an equation says nothing: the solutions of the tableau that
is left are those that some value of the marker completes.

Which row gives way decides whether the tableau stays feasible and in tiers.

* The row of a dummy is zero, so the rows keep their values.
* A restricted row that is exhausted first, in the one direction or the other,
  leaves the other restricted rows non-negative.
* If only rows of variables mention the marker, then no restricted row changes,
  and an objective that depends on restricted symbols alone does not mention the
  marker at all.
-/

namespace Tether

open Simplex

namespace Solver

variable {s : Solver Rat} {σ : Symbol → Rat} {x leaving : Symbol} {r : Row Rat}

section Dropping

theorem solves_of_dropRow (hσ : s.tableau.Solves σ) : (s.dropRow x).tableau.Solves σ :=
  fun b hb => hσ b (mem_of_mem_basics_dropRow hb)

/-- Whatever solves a tableau without a row solves the tableau for some value of
its symbol, at which the objective is the same. -/
theorem Proper.exists_of_dropRow (h : s.Proper) (hx : s.tableau.Knows x)
    (hσ : (s.dropRow x).tableau.Solves σ) :
    ∃ v, s.tableau.Solves (Function.update σ x v) ∧
      s.objective.eval (Function.update σ x v) = s.objective.eval σ := by
  cases hr : s.tableau.row? x with
  | none =>
      refine ⟨σ x, ?_, by rw [Function.update_eq_self]⟩
      rw [Function.update_eq_self]
      intro b hb
      exact hσ b ((mem_basics_dropRow hx).mpr ⟨hb, Tableau.ne_of_mem_basics hr hb⟩)
  | some r =>
      refine ⟨r.eval σ, ?_, h.objective.eval_update (by simp [hr]) σ _⟩
      exact (solves_dropRow h (Tableau.mem_basics_iff.mpr ⟨hx, hr⟩)).mp hσ

end Dropping

section Choice

/-- The row that gives way to a marker, and why it may. -/
def Yields (t : Tableau Rat) (marker leaving : Symbol) (r : Row Rat) : Prop :=
  leaving.tier = 0 ∨
  (leaving.tier = 1 ∧ (∀ b ∈ t.basics, b.2.coefficient marker ≠ 0 → b.1.tier ≠ 0) ∧
    ((r.coefficient marker < 0 ∧ ∀ b ∈ t.basics, b.1.tier = 1 → b.2.coefficient marker < 0 →
        -r.constant / r.coefficient marker ≤ -b.2.constant / b.2.coefficient marker) ∨
      (0 < r.coefficient marker ∧ ∀ b ∈ t.basics, b.1.tier = 1 →
        0 ≤ b.2.coefficient marker ∧ (0 < b.2.coefficient marker →
          r.constant / r.coefficient marker ≤ b.2.constant / b.2.coefficient marker)))) ∨
  (leaving.tier = 2 ∧ ∀ b ∈ t.basics, b.2.coefficient marker ≠ 0 → b.1.tier = 2)

theorem mem_rowsOf_iff {t : Tableau Rat} {marker : Symbol} {b : Symbol × Row Rat} :
    b ∈ rowsOf t marker ↔ b ∈ t.basics ∧ b.2.coefficient marker ≠ 0 := by
  rw [rowsOf, List.mem_filter, Bool.not_eq_true', ← Bool.not_eq_true, Scalar.isZero_iff]

theorem isRestricted_iff : isRestricted x = true ↔ x.tier = 1 := by
  obtain ⟨id, kind⟩ := x
  cases kind <;> simp [isRestricted, Symbol.isDummy, Symbol.isExternal, Symbol.tier,
    SymbolKind.tier]

theorem exists_of_map_find? {rows : List (Symbol × Row Rat)} {kind : Symbol → Bool}
    (h : (rows.find? (fun b => kind b.1)).map (·.1) = some x) :
    ∃ b ∈ rows, b.1 = x ∧ kind x = true := by
  obtain ⟨b, hb, rfl⟩ := Option.map_eq_some_iff.mp h
  exact ⟨b, List.mem_of_find?_eq_some hb, rfl, by simpa using List.find?_some hb⟩

theorem false_of_map_find? {rows : List (Symbol × Row Rat)} {kind : Symbol → Bool}
    (h : (rows.find? (fun b => kind b.1)).map (·.1) = none) {b : Symbol × Row Rat}
    (hb : b ∈ rows) : kind b.1 = false := by
  have hn := List.find?_eq_none.mp (Option.map_eq_none_iff.mp h) b hb
  simpa using hn

variable {t : Tableau Rat} {marker : Symbol} {b : Symbol × Row Rat}

theorem tier_ne_zero_of_find?_eq_none
    (h : ((rowsOf t marker).find? (fun b => b.1.isDummy)).map (·.1) = none) (hb : b ∈ t.basics)
    (hc : b.2.coefficient marker ≠ 0) : b.1.tier ≠ 0 := by
  have hd : b.1.isDummy = false := false_of_map_find? h (mem_rowsOf_iff.mpr ⟨hb, hc⟩)
  exact Symbol.isDummy_eq_false_iff.mp hd

/-- The row that gives way because the marker lowers it. -/
theorem exists_of_lowered? (h : lowered? marker (rowsOf t marker) = some x) :
    ∃ b ∈ rowsOf t marker, b.1 = x ∧ x.tier = 1 ∧ b.2.coefficient marker < 0 ∧
      ∀ d ∈ t.basics, d.1.tier = 1 → d.2.coefficient marker < 0 →
        -b.2.constant / b.2.coefficient marker ≤ -d.2.constant / d.2.coefficient marker := by
  obtain ⟨b, hb, rfl, hcond, hmin⟩ := exists_least_filterMap h
  obtain ⟨hres, hneg⟩ := Bool.and_eq_true_iff.mp hcond
  refine ⟨b, hb, rfl, isRestricted_iff.mp hres, Scalar.negative_iff.mp hneg, fun d hd ht hlow => ?_⟩
  refine hmin d (mem_rowsOf_iff.mpr ⟨hd, ne_of_lt hlow⟩) (Bool.and_eq_true_iff.mpr ?_)
  exact ⟨isRestricted_iff.mpr ht, Scalar.negative_iff.mpr hlow⟩

theorem nonneg_of_lowered?_eq_none (h : lowered? marker (rowsOf t marker) = none)
    (hb : b ∈ t.basics) (ht : b.1.tier = 1) : 0 ≤ b.2.coefficient marker := by
  by_cases hc : b.2.coefficient marker = 0
  · rw [hc]
  · have hcond := eq_false_of_least_filterMap h (mem_rowsOf_iff.mpr ⟨hb, hc⟩)
    rw [isRestricted_iff.mpr ht, Bool.true_and] at hcond
    exact Scalar.negative_eq_false_iff.mp hcond

/-- The row that gives way because the marker raises it. -/
theorem exists_of_raised? (h : raised? marker (rowsOf t marker) = some x) :
    ∃ b ∈ rowsOf t marker, b.1 = x ∧ x.tier = 1 ∧ 0 < b.2.coefficient marker ∧
      ∀ d ∈ t.basics, d.1.tier = 1 → 0 < d.2.coefficient marker →
        b.2.constant / b.2.coefficient marker ≤ d.2.constant / d.2.coefficient marker := by
  obtain ⟨b, hb, rfl, hcond, hmin⟩ := exists_least_filterMap h
  obtain ⟨hres, hpos⟩ := Bool.and_eq_true_iff.mp hcond
  have hge : 0 ≤ b.2.coefficient marker := Scalar.negative_eq_false_iff.mp (by simpa using hpos)
  refine ⟨b, hb, rfl, isRestricted_iff.mp hres,
    lt_of_le_of_ne hge (Ne.symm (mem_rowsOf_iff.mp hb).2), fun d hd ht hup => ?_⟩
  refine hmin d (mem_rowsOf_iff.mpr ⟨hd, ne_of_gt hup⟩) (Bool.and_eq_true_iff.mpr ?_)
  exact ⟨isRestricted_iff.mpr ht, by simp [Scalar.negative_eq_false_iff.mpr (le_of_lt hup)]⟩

theorem neg_of_raised?_eq_none (h : raised? marker (rowsOf t marker) = none)
    (hb : b ∈ t.basics) (ht : b.1.tier = 1) (hc : b.2.coefficient marker ≠ 0) :
    b.2.coefficient marker < 0 := by
  have hcond := eq_false_of_least_filterMap h (mem_rowsOf_iff.mpr ⟨hb, hc⟩)
  rw [isRestricted_iff.mpr ht, Bool.true_and, Bool.not_eq_false'] at hcond
  exact Scalar.negative_iff.mp hcond

theorem yields_of_markerLeaving? (h : withRow t (markerLeaving? t marker) = some (leaving, r)) :
    (leaving, r) ∈ t.basics ∧ r.coefficient marker ≠ 0 ∧ Yields t marker leaving r := by
  obtain ⟨hchoice, hrow⟩ := withRow_eq_some_iff.mp h
  have hmem : ∀ b ∈ rowsOf t marker, b.1 = leaving →
      b.2 = r ∧ (leaving, r) ∈ t.basics ∧ r.coefficient marker ≠ 0 := by
    rintro b hb rfl
    obtain ⟨hb, hc⟩ := mem_rowsOf_iff.mp hb
    obtain ⟨hk, hbr⟩ := Tableau.mem_basics_iff.mp hb
    rw [hbr] at hrow
    cases hrow
    exact ⟨rfl, hb, hc⟩
  unfold markerLeaving? at hchoice
  rcases Option.or_eq_some_iff.mp hchoice with hd | ⟨hnodummy, hchoice⟩
  · obtain ⟨b, hb, hbl, hkind⟩ := exists_of_map_find? hd
    obtain ⟨-, hm, hc⟩ := hmem b hb hbl
    exact ⟨hm, hc, Or.inl (Symbol.isDummy_iff.mp hkind)⟩
  have hnot0 : ∀ b ∈ t.basics, b.2.coefficient marker ≠ 0 → b.1.tier ≠ 0 :=
    fun b hb hc => tier_ne_zero_of_find?_eq_none hnodummy hb hc
  rcases Option.or_eq_some_iff.mp hchoice with hl | ⟨hnolow, hchoice⟩
  · obtain ⟨b, hb, hbl, ht, hneg, hmin⟩ := exists_of_lowered? hl
    obtain ⟨rfl, hm, hc⟩ := hmem b hb hbl
    exact ⟨hm, hc, Or.inr (Or.inl ⟨ht, hnot0, Or.inl ⟨hneg, hmin⟩⟩)⟩
  have hnot1 := fun d hd => nonneg_of_lowered?_eq_none (b := d) hnolow hd
  rcases Option.or_eq_some_iff.mp hchoice with hr | ⟨hnoraise, he⟩
  · obtain ⟨b, hb, hbl, ht, hpos, hmin⟩ := exists_of_raised? hr
    obtain ⟨rfl, hm, hc⟩ := hmem b hb hbl
    exact ⟨hm, hc, Or.inr (Or.inl ⟨ht, hnot0, Or.inr ⟨hpos, fun d hd hdt =>
      ⟨hnot1 d hd hdt, hmin d hd hdt⟩⟩⟩)⟩
  · obtain ⟨b, hb, hbl, hkind⟩ := exists_of_map_find? he
    obtain ⟨-, hm, hc⟩ := hmem b hb hbl
    refine ⟨hm, hc, Or.inr (Or.inr ⟨Symbol.isExternal_iff.mp hkind, fun d hd hdc => ?_⟩)⟩
    have h0 := hnot0 d hd hdc
    have h1 : d.1.tier ≠ 1 := fun ht =>
      not_lt_of_ge (hnot1 d hd ht) (neg_of_raised?_eq_none hnoraise hd ht hdc)
    have h2 := d.1.tier_le_two
    omega

/-- If no row gives way, then no row depends on the marker. -/
theorem coefficient_eq_zero_of_markerLeaving? (h : withRow t (markerLeaving? t marker) = none)
    (hb : b ∈ t.basics) : b.2.coefficient marker = 0 := by
  have hnone : markerLeaving? t marker = none := by
    cases hx : markerLeaving? t marker with
    | none => rfl
    | some x =>
        obtain ⟨q, hq⟩ := mem_rowsOf_of_markerLeaving? hx
        have hrow := (Tableau.mem_basics_iff.mp (mem_rowsOf_iff.mp hq).1).2
        rw [hx] at h
        have := withRow_eq_some_iff.mpr ⟨rfl, hrow⟩
        rw [h] at this
        cases this
  unfold markerLeaving? at hnone
  obtain ⟨hdummy, hnone⟩ := Option.or_eq_none_iff.mp hnone
  obtain ⟨hlow, hnone⟩ := Option.or_eq_none_iff.mp hnone
  obtain ⟨hup, hext⟩ := Option.or_eq_none_iff.mp hnone
  by_contra hc
  have h0 := tier_ne_zero_of_find?_eq_none hdummy hb hc
  have h1 : b.1.tier ≠ 1 := fun ht =>
    not_lt_of_ge (nonneg_of_lowered?_eq_none hlow hb ht) (neg_of_raised?_eq_none hup hb ht hc)
  have h2 := Symbol.isExternal_eq_false_iff.mp
    (false_of_map_find? hext (mem_rowsOf_iff.mpr ⟨hb, hc⟩))
  have hle := b.1.tier_le_two
  omega

end Choice

section Marker

variable {marker : Symbol}

/-- The objective depends on restricted symbols other than the marker alone. -/
def Disregards (s : Solver Rat) (marker : Symbol) : Prop :=
  ∀ σ τ, s.tableau.Solves σ → s.tableau.Solves τ →
    (∀ x, s.tableau.Knows x → x ≠ marker → x.tier = 1 → σ x = τ x) →
      s.objective.eval σ = s.objective.eval τ

/-- A solver whose solutions are those that some value of a symbol completes to
solutions of another one, with the same objective. -/
structure Freed (s : Solver Rat) (x : Symbol) (u : Solver Rat) : Prop where
  layered : u.Layered
  feasible : u.Feasible
  solves : ∀ σ v, s.tableau.Solves (Function.update σ x v) → u.tableau.Solves σ
  completes : ∀ σ, u.tableau.Solves σ → ∃ v, s.tableau.Solves (Function.update σ x v) ∧
    u.objective.eval σ = s.objective.eval (Function.update σ x v)

/-- The restricted rows stay non-negative when the yielding row gives way. -/
theorem Layered.nonneg_of_yields (h : s.Layered) (hf : s.Feasible)
    (hl : (leaving, r) ∈ s.tableau.basics) (hy : Yields s.tableau marker leaving r)
    {b : Symbol × Row Rat}
    (hb : b ∈ s.tableau.basics) (ht : b.1.tier = 1) :
    0 ≤ b.2.constant + b.2.coefficient marker * (-r.constant / r.coefficient marker) := by
  have hpos := hf b hb ht
  rcases hy with h0 | ⟨h1, -, ⟨hneg, hmin⟩ | ⟨hup, hmin⟩⟩ | ⟨-, hext⟩
  · rw [(h.rows _ hl).constant h0, neg_zero, zero_div, mul_zero, add_zero]
    exact hpos
  · have hratio : 0 ≤ -r.constant / r.coefficient marker :=
      div_nonneg_of_nonpos (by linarith [hf _ hl h1]) (le_of_lt hneg)
    by_cases hlow : b.2.coefficient marker < 0
    · have := mul_le_mul_of_nonpos_left (hmin b hb ht hlow) (le_of_lt hlow)
      rw [mul_div_cancel₀ _ (ne_of_lt hlow)] at this
      linarith
    · linarith [mul_nonneg (le_of_not_gt hlow) hratio]
  · obtain ⟨hge, hratio⟩ := hmin b hb ht
    rcases lt_or_eq_of_le hge with hgt | heq
    · have := mul_le_mul_of_nonneg_left (hratio hgt) hge
      rw [mul_div_cancel₀ _ (ne_of_gt hgt)] at this
      rw [neg_div, mul_neg]
      linarith
    · rw [← heq, zero_mul, add_zero]
      exact hpos
  · have hzero : b.2.coefficient marker = 0 := by
      by_contra hne
      have := hext b hb hne
      omega
    rw [hzero, zero_mul, add_zero]
    exact hpos

/-- If only rows of variables mention a marker, then an objective that
disregards it does not. -/
theorem Layered.notMem_objective (h : s.Layered) (hd : s.Disregards marker)
    (hext : ∀ b ∈ s.tableau.basics, b.2.coefficient marker ≠ 0 → b.1.tier = 2) :
    marker ∉ s.objective.symbols := by
  have hsame : s.objective.eval (s.tableau.fill (Function.update 0 marker 1)) =
      s.objective.eval (s.tableau.fill 0) := by
    refine hd _ _ (h.proper.rows.solves_fill _) (h.proper.rows.solves_fill _) ?_
    intro x hk hne hx
    cases hr : s.tableau.row? x with
    | none =>
        rw [Tableau.fill_of_parametric hr, Tableau.fill_of_parametric hr,
          Function.update_of_ne hne]
    | some q =>
        have hb := Tableau.mem_basics_iff.mpr ⟨hk, hr⟩
        have hzero : q.coefficient marker = 0 := by
          by_contra hc
          have := hext _ hb hc
          dsimp only at this
          omega
        rw [Tableau.fill_of_basic hr, Tableau.fill_of_basic hr, (h.ordered hb).eval_update, hzero,
          zero_mul, add_zero]
  have ho := h.proper.objective
  rw [ho.eval_fill, ho.eval_fill, ho.ordered.eval_update, Pi.zero_apply, sub_zero, mul_one]
    at hsame
  intro hmem
  exact h.objective.reduced.coefficient_ne_zero hmem (by linarith)

theorem Layered.layered_of_yields (h : s.Layered) (hd : s.Disregards marker)
    (hm : s.tableau.row? marker = none) (ha : s.artificial = none)
    (hl : (leaving, r) ∈ s.tableau.basics) (hc : r.coefficient marker ≠ 0)
    (hy : Yields s.tableau marker leaving r) :
    ((s.dropRow leaving).substitute marker (r.exchange leaving marker)).Layered := by
  obtain ⟨hk, hrow⟩ := Tableau.mem_basics_iff.mp hl
  have hne : leaving ≠ marker := Tableau.ne_of_mem_basics (b := (leaving, r)) hm hl
  have hq : (r.exchange leaving marker).Within leaving.tier :=
    (h.rows _ hl).exchange (h.ordered hl) hne hc (Nat.le_refl _)
  refine (h.dropRow leaving).substitute (h.proper.admits_exchange hk hrow) ?_ ?_ ?_
  · intro b hb hin
    have hbm := mem_of_mem_basics_dropRow hb
    have hbc := (h.rows b hbm).reduced.coefficient_ne_zero hin
    refine hq.mono ?_
    rcases hy with h0 | ⟨h1, hnot, -⟩ | ⟨h2, hext⟩
    · omega
    · have := hnot b hbm hbc
      omega
    · rw [hext b hbm hbc, h2]
  · intro hin
    refine hq.mono ?_
    rcases hy with h0 | ⟨h1, -, -⟩ | ⟨-, hext⟩
    · omega
    · omega
    · exact absurd hin (h.notMem_objective hd hext)
  · intro p hp
    have hp : p ∈ s.artificial := hp
    rw [ha] at hp
    cases hp

/-- What is left when a row gives way is solved by what the value of that row
completes. -/
theorem Layered.solves_of_yields (h : s.Layered) (hm : s.tableau.row? marker = none)
    (hl : (leaving, r) ∈ s.tableau.basics) (hc : r.coefficient marker ≠ 0)
    (σ : Symbol → Rat) :
    ((s.dropRow leaving).substitute marker (r.exchange leaving marker)).tableau.Solves σ ↔
      s.tableau.Solves (Function.update σ marker ((r.exchange leaving marker).eval σ)) := by
  have hne : leaving ≠ marker := Tableau.ne_of_mem_basics (b := (leaving, r)) hm hl
  have hordered := h.ordered hl
  have hnot : marker ∉ (r.exchange leaving marker).symbols :=
    fun hin => (hordered.mem_symbols_exchange hin).1 rfl
  have heq := (eval_exchange_eq_iff (σ := Function.update σ marker
    ((r.exchange leaving marker).eval σ)) hordered hne hc).mp
      (by rw [Function.update_self, Row.eval_update_of_notMem hnot])
  have hdrop : (s.dropRow leaving).tableau.row? marker = none := by
    rw [Tableau.row?, rowAt?_dropRow]
    split
    · rfl
    · exact hm
  rw [solves_substitute (h.proper.dropRow leaving) hdrop, solves_dropRow h.proper hl, ← heq,
    Function.update_eq_self]

theorem Layered.freed_of_yields (h : s.Layered) (hf : s.Feasible) (hd : s.Disregards marker)
    (hm : s.tableau.row? marker = none) (ha : s.artificial = none)
    (hl : (leaving, r) ∈ s.tableau.basics) (hc : r.coefficient marker ≠ 0)
    (hy : Yields s.tableau marker leaving r) :
    Freed s marker ((s.dropRow leaving).substitute marker (r.exchange leaving marker)) := by
  have hne : leaving ≠ marker := Tableau.ne_of_mem_basics (b := (leaving, r)) hm hl
  have hordered := h.ordered hl
  have hnot : marker ∉ (r.exchange leaving marker).symbols :=
    fun hin => (hordered.mem_symbols_exchange hin).1 rfl
  refine ⟨h.layered_of_yields hd hm ha hl hc hy, ?_, fun σ v hσ => ?_, fun σ hσ => ?_⟩
  · intro b hb hbt
    obtain ⟨p, hp, he⟩ := mem_basics_substitute.mp hb
    have hpm := mem_of_mem_basics_dropRow hp
    rw [he, (h.ordered hpm).constant_substitute, Row.constant_exchange hordered hne hc]
    exact h.nonneg_of_yields hf hl hy hpm hbt
  · have heq := (eval_exchange_eq_iff hordered hne hc).mpr (hσ _ hl)
    rw [Function.update_self, Row.eval_update_of_notMem hnot] at heq
    rw [h.solves_of_yields hm hl hc, ← heq]
    exact hσ
  · exact ⟨_, (h.solves_of_yields hm hl hc σ).mp hσ,
      h.proper.objective.ordered.eval_substitute _ _⟩

theorem Layered.freed_dropRow (h : s.Layered) (hf : s.Feasible)
    (hb : (marker, r) ∈ s.tableau.basics) : Freed s marker (s.dropRow marker) := by
  obtain ⟨hk, hr⟩ := Tableau.mem_basics_iff.mp hb
  refine ⟨h.dropRow marker, hf.dropRow marker, fun σ v hσ => ?_, fun σ hσ => ?_⟩
  · have hv := hσ _ hb
    rw [Function.update_self, (h.proper.rows.admits hb).eval_update (by simp [hr])] at hv
    rw [solves_dropRow h.proper hb, ← hv]
    exact hσ
  · obtain ⟨v, hv, ho⟩ := h.proper.exists_of_dropRow hk hσ
    exact ⟨v, hv, ho.symm⟩

theorem Layered.freed_self (h : s.Layered) (hf : s.Feasible)
    (hm : s.tableau.row? marker = none)
    (hc : ∀ b ∈ s.tableau.basics, b.2.coefficient marker = 0) : Freed s marker s := by
  refine ⟨h, hf, fun σ v hσ b hb => ?_, fun σ hσ => ⟨σ marker, ?_, ?_⟩⟩
  · have hv := hσ b hb
    rwa [Function.update_of_ne (Tableau.ne_of_mem_basics hm hb), (h.ordered hb).eval_update,
      hc b hb, zero_mul, add_zero] at hv
  · rwa [Function.update_eq_self]
  · rw [Function.update_eq_self]

/-- Taking a marker out frees it, whichever row gives way. -/
theorem Layered.removeMarker (h : s.Layered) (hf : s.Feasible)
    (hk : s.tableau.Knows marker) (ha : s.artificial = none) (hd : s.Disregards marker) :
    Freed s marker (s.removeMarker marker) := by
  unfold Solver.removeMarker
  split
  · rename_i hbasic
    obtain ⟨r, hr⟩ := Option.isSome_iff_exists.mp hbasic
    exact h.freed_dropRow hf (Tableau.mem_basics_iff.mpr ⟨hk, hr⟩)
  · rename_i hbasic
    have hm : s.tableau.row? marker = none := by
      simpa [Tableau.isBasic] using hbasic
    split
    · rename_i hrow
      exact h.freed_self hf hm (fun _ hb => coefficient_eq_zero_of_markerLeaving? hrow hb)
    · rename_i leaving r hrow
      obtain ⟨hl, hc, hy⟩ := yields_of_markerLeaving? hrow
      exact h.freed_of_yields hf hd hm ha hl hc hy

end Marker

end Solver
end Tether
