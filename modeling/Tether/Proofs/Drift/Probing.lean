import Tether.Proofs.Drift.Drafting
import Tether.Proofs.Solver.LedgerInsertion

/-!
# Losses of taking a row in

A solver takes a row in if its values come from values of before at which the row is small.
A symbol of the row that enters makes it zero.  A probe that succeeds makes it small: the
artificial variable is what the row misses zero by, and it is set to zero, or it has a row
without symbols that is near zero.

While the artificial variable is basic, the objective of the probe is its row; and once it
has left, nothing lowers that objective any more, so it does not come back.
-/

namespace Tether

open Simplex

namespace Simplex
namespace Row

variable {r : Row Coarse} {x y a : Symbol}

section Exchanging

theorem Ordered.coefficient_erase {q : Row Rat} (h : q.Ordered) (x y : Symbol) :
    (q.erase x).coefficient y = if y = x then 0 else q.coefficient y := by
  by_cases hy : y = x
  · rw [if_pos hy, hy]
    exact coefficient_of_notMem (h.notMem_symbols_erase x)
  · have hc : (q.erase x).constant = q.constant := rfl
    rw [if_neg hy, (ordered_erase h x).coefficient_eq, eval_erase, hc,
      Function.update_of_ne (Ne.symm hy), h.coefficient_eq y, Pi.zero_apply, mul_zero, sub_zero]

/-- Putting an exchanged row into itself leaves the symbol that left, once. -/
theorem coefficient_substitute_exchange {q : Row Rat} (h : q.Ordered) (ha : a ∉ q.symbols)
    (hne : a ≠ x) (hx : q.coefficient x ≠ 0) (y : Symbol) :
    (q.substitute x (q.exchange a x)).coefficient y = if y = a then 1 else 0 := by
  rw [h.coefficient_substitute (ordered_exchange h a x), coefficient_exchange h hne hx ha]
  by_cases hyx : y = x
  · rw [if_pos hyx, if_pos hyx, if_neg (fun hya => hne (hya.symm.trans hyx))]
    ring
  · rw [if_neg hyx, if_neg hyx]
    by_cases hya : y = a
    · rw [if_pos hya, if_pos hya, hya, coefficient_of_notMem ha]
      field_simp
      ring
    · rw [if_neg hya, if_neg hya]
      field_simp
      ring

theorem Ordered.value_of_mem (h : r.Ordered) {c : Cell Coarse} (hc : c ∈ r.cells) :
    c.2.value = r.exact.coefficient c.1 :=
  (h.exact.coefficient_of_mem (c := (c.1, c.2.value)) (List.mem_map.mpr ⟨c, hc, rfl⟩)).symm

/-- Nothing is lost when an exchanged row is put into itself: every sum is one or zero. -/
theorem exact_substitute_exchange (hr : r.Ordered) (ha : a ∉ r.symbols) (hne : a ≠ x)
    (hx : r.exact.coefficient x ≠ 0) :
    (r.substitute x (r.exchange a x)).exact =
      r.exact.substitute x (r.exact.exchange a x) := by
  have hexact := exact_exchange (y := x) hr ha
  have haexact : a ∉ r.exact.symbols := by rwa [symbols_exact]
  obtain ⟨b, hb⟩ : ∃ b, r.get? x = some b := by
    rw [coefficient, get?_exact] at hx
    cases hget : r.get? x with
    | none => rw [hget] at hx; exact absurd rfl hx
    | some b => exact ⟨b, rfl⟩
  have hbx : r.exact.coefficient x = b.value := by
    rw [coefficient, get?_exact, hb]
    rfl
  have hclean : ∀ c ∈ (r.exchange a x).cells,
      Clean ((r.erase x).coefficient c.1 + c.2 * b) := by
    intro c hc hz
    have hsum : ((r.erase x).coefficient c.1 + c.2 * b).value = if c.1 = a then 1 else 0 := by
      show ((r.erase x).coefficient c.1).value + c.2.value * b.value = _
      rw [← coefficient_substitute_exchange hr.exact haexact hne hx,
        hr.exact.coefficient_substitute (ordered_exchange hr.exact a x), ← hexact,
        (ordered_exchange hr a x).value_of_mem hc, ← coefficient_exact, exact_erase,
        hr.exact.coefficient_erase, hbx, mul_comm]
    have hsmall := Coarse.abs_lt_of_nearZero hz
    rw [hsum] at hsmall ⊢
    by_cases hca : c.1 = a
    · rw [if_pos hca] at hsmall
      exact absurd hsmall (by decide +kernel)
    · rw [if_neg hca]
  unfold substitute
  rw [get?_exact, hb, Option.map_some]
  dsimp only
  rw [exact_addRow (ordered_erase hr x) (ordered_exchange hr a x) hclean, exact_erase, hexact]

/-- Once the symbol of an objective has left, nothing lowers the objective. -/
theorem entering?_substitute_exchange (hr : r.Ordered) (ha : a ∉ r.symbols) (hne : a ≠ x)
    (hx : r.exact.coefficient x ≠ 0) :
    Solver.entering? (r.substitute x (r.exchange a x)) = none := by
  have haexact : a ∉ r.exact.symbols := by rwa [symbols_exact]
  refine (least?_eq_none_iff _).mpr (fun c hc => ?_)
  have hge : 0 ≤ c.2.value := by
    rw [(ordered_substitute hr x _).value_of_mem (List.mem_filter.mp hc).1,
      exact_substitute_exchange hr ha hne hx,
      coefficient_substitute_exchange hr.exact haexact hne hx]
    split <;> norm_num
  exact decide_eq_false_iff_not.mpr (not_lt.mpr hge)

end Exchanging

end Row
end Simplex

namespace Solver

variable {u w : Solver Coarse} {r q : Row Coarse} {a x : Symbol} {j i : Nat} {M : Rat}
  {σ : Symbol → Rat}

section Taking

/-- Bounded values that solve the one tableau come from values that solve another one and
make a row small: after so many eliminations with losses. -/
structure Takes (j : Nat) (r : Row Coarse) (u w : Solver Coarse) : Prop where
  count : u.tableau.symbolCount ≤ w.tableau.symbolCount
  back : ∀ n, w.tableau.symbolCount ≤ n → ∀ σ M, 1 ≤ M → w.tableau.Meets σ → Row.Bounded M σ →
    ∃ τ, u.tableau.Meets τ ∧ (∀ x, |τ x - σ x| ≤ (growth n ^ j - 1) * M) ∧
      |r.exact.eval τ| ≤ (growth n ^ j - 1) * M

theorem Takes.mono (h : Takes j r u w) (hj : j ≤ i) : Takes i r u w := by
  refine ⟨h.count, fun n hn σ M hM hσ hb => ?_⟩
  obtain ⟨τ, hτ, hclose, hsmall⟩ := h.back n hn σ M hM hσ hb
  have hmore := growth_pow_sub_one_mul_le n (zero_le_one.trans hM) hj
  exact ⟨τ, hτ, fun x => (hclose x).trans hmore, hsmall.trans hmore⟩

theorem Takes.retraces (h : Takes j r u w) : Retraces j Reach.id ∅ u w := by
  refine ⟨h.count, fun n hn σ M hM hσ hb => ?_⟩
  obtain ⟨τ, hτ, hclose, -⟩ := h.back n hn σ M hM hσ hb
  exact ⟨τ, hτ, bounded_of_losses hb hclose, fun x _ => hclose x⟩

/-- Values that solve the rows after a symbol has entered are close to values that solve the
rows of before. -/
theorem Proper.abs_refill_enter_le (h : u.Proper) (hx : u.tableau.Parametric x)
    (hq : u.tableau.Admits q) (hσ : (u.enter x q).tableau.Meets σ) (hb : Row.Bounded M σ)
    {n : Nat} (hn : u.tableau.symbolCount ≤ n) (y : Symbol) :
    |u.tableau.refill σ y - σ y| ≤ (growth n ^ 1 - 1) * M := by
  obtain ⟨hent, hsub⟩ := meets_enter hx hσ
  have hM : 0 ≤ M := (abs_nonneg _).trans (hb x)
  have hε := Coarse.epsilon_pos
  have hlength : (q.cells.length : Rat) ≤ n := Nat.cast_le.mpr (hq.length_le.trans hn)
  refine Tableau.abs_refill_sub_le (mul_nonneg (growth_pow_sub_one_nonneg n 1) hM)
    (fun b hmem => ?_) y
  have hclose := h.abs_defect_le hx.2 hsub hb hmem
  rw [← hent, Function.update_eq_self] at hclose
  refine hclose.trans ?_
  rw [pow_one, growth, add_sub_cancel_left, mul_assoc]
  gcongr

/-- Letting a symbol enter is one elimination. -/
theorem Proper.retraces_enter (h : u.Proper) (hx : u.tableau.Parametric x)
    (hq : u.tableau.Admits q) : Retraces 1 Reach.id ∅ u (u.enter x q) := by
  have hcount : u.tableau.symbolCount ≤ (u.enter x q).tableau.symbolCount :=
    Tableau.symbolCount_le_of_knows (fun _ hy => knows_enter.mpr hy)
  refine ⟨hcount, fun n hn σ M _ hσ hb => ?_⟩
  have hclose := h.abs_refill_enter_le hx hq hσ hb (hcount.trans hn)
  exact ⟨u.tableau.refill σ, h.rows.meets_refill σ, bounded_of_losses hb hclose, fun y _ => hclose y⟩

/-- A row is taken in when one of its symbols enters. -/
theorem Proper.takes_enter (h : u.Proper) (hr : u.tableau.Admits r)
    (hx : r.exact.coefficient x ≠ 0) : Takes 1 r u (u.enter x (r.solveFor x)) := by
  have hm := Row.mem_symbols_of_exact hx
  have hp := hr.parametric x hm
  have hcount : u.tableau.symbolCount ≤ (u.enter x (r.solveFor x)).tableau.symbolCount :=
    Tableau.symbolCount_le_of_knows (fun _ hy => knows_enter.mpr hy)
  refine ⟨hcount, fun n hn σ M hM hσ hb => ⟨u.tableau.refill σ, h.rows.meets_refill σ,
    h.abs_refill_enter_le hp (hr.solveFor x) hσ hb (hcount.trans hn), ?_⟩⟩
  have hent := (meets_enter hp hσ).1
  rw [Row.exact_solveFor, Row.eval_solveFor hx] at hent
  have hzero : r.exact.eval σ / r.exact.coefficient x = 0 := by linarith
  rw [hr.eval_refill, (div_eq_zero_iff.mp hzero).resolve_right hx, abs_zero]
  exact mul_nonneg (growth_pow_sub_one_nonneg n 1) (zero_le_one.trans hM)

end Taking

section Setting

theorem meets_update_of_not_knows (h : u.Proper) (ha : ¬ u.tableau.Knows a)
    (hσ : u.tableau.Meets σ) (v : Rat) : u.tableau.Meets (Function.update σ a v) := by
  intro b hmem
  have hne : b.1 ≠ a := fun he => ha (he ▸ (Tableau.mem_basics_iff.mp hmem).1)
  have hnot : a ∉ b.2.exact.symbols := by
    rw [Row.symbols_exact]
    exact fun hm => ha ((h.rows.admits_coarse hmem).parametric a hm).1
  rw [Function.update_of_ne hne, Row.eval_update_of_notMem hnot]
  exact hσ b hmem

/-- A parametric symbol that is taken out of the rows is set to zero. -/
theorem Proper.meets_dropArtificial (h : w.Proper) (ha : w.tableau.row? a = none)
    (hσ : (w.dropArtificial a).tableau.Meets σ) :
    w.tableau.Meets (Function.update σ a 0) := by
  intro b hmem
  have hrow : σ b.1 = (b.2.erase a).exact.eval σ :=
    hσ (b.1, b.2.erase a) (mem_basics_dropArtificial.mpr ⟨b.2, hmem, rfl⟩)
  rw [Function.update_of_ne (Tableau.ne_of_mem_basics ha hmem), hrow, Row.exact_erase,
    Row.eval_erase, (h.rows.admits_coarse hmem).ordered.exact.eval_update]
  ring

end Setting

section Hosting

theorem row?_host (u : Solver Coarse) (r : Row Coarse) :
    (u.host r).tableau.row? (u.newSymbol .slack).1 = some r :=
  (Tableau.mem_basics_iff.mp (mem_basics_host.mpr (Or.inl rfl))).2

/-- Where an artificial variable hosts a row, its value is that of the row. -/
theorem meets_host (hσ : (u.host r).tableau.Meets σ) :
    σ (u.newSymbol .slack).1 = r.exact.eval σ ∧ u.tableau.Meets σ :=
   ⟨hσ (_, r) (mem_basics_host.mpr (Or.inl rfl)),
    fun b hmem => hσ b (mem_basics_host.mpr (Or.inr hmem))⟩

end Hosting

section Probing

/-- A solver that has been pivoted while a row is probed: the artificial variable is basic
and its row is the objective, or it has left and nothing lowers the objective. -/
structure Attempted (s : Solver Coarse) (a : Symbol) (j : Nat) (w : Solver Coarse) : Prop where
  pivoted : Pivoted s j w
  knows : w.tableau.Knows a
  aligned : (∃ q, w.tableau.row? a = some q ∧ w.artificial = some q ∧ q.Solid) ∨
    w.tableau.row? a = none ∧ ∀ g ∈ w.artificial, entering? g = none

variable {s : Solver Coarse} {leaving entering : Symbol}

/-- A symbol of the row of a basic symbol is not that symbol. -/
theorem Proper.id_ne_of_basic (h : w.Proper) (ha : w.tableau.Knows a)
    (hrow : w.tableau.row? a = some q) (hx : x ∈ q.symbols) : x.id ≠ a.id := by
  intro hid
  have hmem := Tableau.mem_basics_iff.mpr ⟨ha, hrow⟩
  have hk := ((h.rows.admits_coarse hmem).parametric x hx).1
  exact h.notMem_of_basic hmem hmem (hk.eq_of_id_eq ha hid ▸ hx)

/-- The row of a symbol after a pivot of other symbols. -/
theorem row?_pivot_of_ne (hent : w.tableau.Knows entering)
    (hne : entering.id ≠ a.id) (hl : leaving.id ≠ a.id) :
    ((w.dropRow leaving).pivot leaving entering r).tableau.row? a =
      (w.tableau.row? a).map (fun p => p.substitute entering (r.exchange leaving entering)) := by
  unfold Solver.pivot
  rw [Tableau.row?, rowAt?_enter (knows_dropRow.mpr hent), if_neg hne, rowAt?_dropRow, if_neg hl]
  rfl

/-- After a pivot the symbol that has left is parametric. -/
theorem row?_pivot_leaving (hent : w.tableau.Knows entering) (hne : entering.id ≠ leaving.id) :
    ((w.dropRow leaving).pivot leaving entering r).tableau.row? leaving = none := by
  unfold Solver.pivot
  rw [Tableau.row?, rowAt?_enter (knows_dropRow.mpr hent), if_neg hne, rowAt?_dropRow, if_pos rfl]
  rfl

/-- A pivot puts a row in the place of the entering symbol in the row of an artificial
variable too. -/
theorem artificial_pivot (w : Solver Coarse) (leaving entering : Symbol) (r : Row Coarse) :
    ((w.dropRow leaving).pivot leaving entering r).artificial =
      w.artificial.map (fun p => p.substitute entering (r.exchange leaving entering)) :=
  rfl

theorem Attempted.succ (h : Attempted s a j w) : Attempted s a (j + 1) w :=
  ⟨h.pivoted.succ, h.knows, h.aligned⟩

/-- A pivot for a symbol that lowers the objective: either the artificial variable stays
basic, or it is what leaves, and then nothing lowers the objective any more. -/
theorem Attempted.pivot (h : Attempted s a j w) (hg : w.artificial = some q)
    (hent : entering? q = some entering) (hl : (leaving, r) ∈ w.tableau.basics)
    (hcoeff : r.exact.coefficient entering ≠ 0) :
    Attempted s a (j + 1) ((w.dropRow leaving).pivot leaving entering r) := by
  rcases h.aligned with ⟨g, hq, hart, hsolid⟩ | ⟨-, hnone⟩
  · obtain rfl : g = q := Option.some.inj (hart.symm.trans hg)
    have hin := (mem_symbols_of_entering? hent).1
    have hne := h.pivoted.proper.id_ne_of_basic h.knows hq hin
    have hknows := (h.pivoted.proper.artificial g hg).parametric entering hin
    have hart' := artificial_pivot w leaving entering r
    rw [hg] at hart'
    refine ⟨h.pivoted.pivot hl hcoeff, knows_enter.mpr (knows_dropRow.mpr h.knows), ?_⟩
    by_cases hla : leaving = a
    · subst hla
      obtain rfl : r = g := Option.some.inj ((Tableau.mem_basics_iff.mp hl).2.symm.trans hq)
      refine Or.inr ⟨row?_pivot_leaving hknows.1 hne, fun g' hg' => ?_⟩
      rw [hart'] at hg'
      obtain rfl := Option.some.inj hg'
      exact Row.entering?_substitute_exchange (h.pivoted.proper.rows.admits_coarse hl).ordered
        (h.pivoted.proper.notMem_of_basic hl hl) (fun he => hne (congrArg Symbol.id he.symm))
        hcoeff
    · have hid : leaving.id ≠ a.id :=
        fun he => hla ((Tableau.mem_basics_iff.mp hl).1.eq_of_id_eq h.knows he)
      refine Or.inl ⟨_, ?_, hart', hsolid.substitute _ _⟩
      rw [row?_pivot_of_ne hknows.1 hne hid, hq]
      rfl
  · rw [hnone q hg] at hent
    cases hent

theorem Attempted.primalStep (h : Attempted s a j w) :
    (primalStep .artificial w).Keeps (Attempted s a (j + 1)) (fun p => Attempted s a j p.1) := by
  unfold Solver.primalStep
  split
  · exact h
  · rename_i g hgoal
    have hg : w.artificial = some g := hgoal
    split
    · exact h
    · rename_i entering hent
      split
      · exact h
      · rename_i leaving r hrow
        obtain ⟨hl, hcoeff⟩ := exhausted_coefficient hrow
        exact h.pivot hg hent hl hcoeff

/-- The loop of a probe. -/
theorem Attempted.optimize (h : Attempted s a j w) (limit : Nat) :
    Ensures (w.optimize .artificial limit) (fun p => Attempted s a (j + limit) p.1) :=
  ensures_iterate_counting (I := Attempted s a) (fun _ _ hw => hw.succ)
    (fun _ _ hw => hw.primalStep) limit h

theorem attempted_host (h : u.Proper) (hr : u.tableau.Admits r) (hsolid : r.Solid) :
    Attempted (u.host r) (u.newSymbol .slack).1 0 (u.host r) :=
  ⟨(h.host hr .slack).pivoted, knows_host u r, Or.inl ⟨r, row?_host u r, rfl, hsolid⟩⟩

end Probing

section Settling

/-- If there is a symbol, then one more elimination allows for the tolerance. -/
theorem growth_pow_sub_one_mul_add_epsilon_le {n : Nat} (j : Nat) (hn : 0 < n) (hM : 1 ≤ M) :
    (growth n ^ j - 1) * M + Coarse.epsilon ≤ (growth n ^ (j + 1) - 1) * M := by
  have hε := Coarse.epsilon_pos
  have hn₁ : (1 : Rat) ≤ n := Nat.one_le_cast.mpr hn
  have hloss : Coarse.epsilon ≤ n * (Coarse.epsilon * (growth n ^ j * M)) := by
    have hone := one_le_mul_of_one_le_of_one_le (one_le_growth_pow n j) hM
    exact (le_mul_of_one_le_right hε.le hone).trans
      (le_mul_of_one_le_left (by positivity) hn₁)
  rw [growth_pow_succ_sub_one]
  linarith

variable (hu : u.Proper) (hr : u.tableau.Admits r)
include hu hr

/-- If the artificial variable can be small where a row is hosted, then the row is taken
in. -/
theorem takes_of_small (hw : Retraces j Reach.id ∅ (u.host r) w) {w' : Solver Coarse}
    (hcount : w.tableau.symbolCount ≤ w'.tableau.symbolCount)
    (hsmall : ∀ σ, w'.tableau.Meets σ → ∃ v, |v| ≤ Coarse.epsilon ∧
      w.tableau.Meets (Function.update σ (u.newSymbol .slack).1 v)) :
    Takes (j + 1) r u w' := by
  have hnot := not_knows_newSymbol u
  have hrow : (u.newSymbol .slack).1 ∉ r.exact.symbols := by
    rw [Row.symbols_exact]
    exact fun hm => hnot (hr.parametric _ hm).1
  have hfirst : u.tableau.symbolCount ≤ (u.host r).tableau.symbolCount :=
    Tableau.symbolCount_le_of_knows (fun x hx => Tableau.knows_insert.mpr (hx.newSymbol .slack))
  refine ⟨hfirst.trans (hw.count.trans hcount), fun n hn σ M hM hσ hb => ?_⟩
  obtain ⟨v, hv, hset⟩ := hsmall σ hσ
  have hε := Coarse.epsilon_pos
  have hone : Coarse.epsilon ≤ 1 := by decide +kernel
  have hbset : Row.Bounded M (Function.update σ (u.newSymbol .slack).1 v) :=
    hb.update (by linarith)
  obtain ⟨τ, hτ, -, hclose⟩ := hw.back n (hcount.trans hn) _ M hM hset hbset
  obtain ⟨hvalue, hmeets⟩ := meets_host hτ
  -- there is a symbol, so one more elimination counts for the tolerance
  have hpos : 0 < n := Nat.lt_of_le_of_lt (Nat.zero_le _) (Nat.lt_of_lt_of_le
    (knows_host u r).id_lt (hw.count.trans (hcount.trans hn)))
  have hmore := growth_pow_sub_one_mul_add_epsilon_le j hpos hM
  refine ⟨Function.update τ (u.newSymbol .slack).1 (σ (u.newSymbol .slack).1),
    meets_update_of_not_knows hu hnot hmeets _, fun x => ?_, ?_⟩
  · by_cases hx : x = (u.newSymbol .slack).1
    · rw [hx, Function.update_self, sub_self, abs_zero]
      exact mul_nonneg (growth_pow_sub_one_nonneg n _) (zero_le_one.trans hM)
    · have hx' := hclose x (Set.notMem_empty x)
      rw [Function.update_of_ne hx, Reach.bound_id] at hx'
      rw [Function.update_of_ne hx]
      linarith
  · have ha := hclose (u.newSymbol .slack).1 (Set.notMem_empty _)
    rw [Function.update_self, Reach.bound_id] at ha
    rw [Row.eval_update_of_notMem hrow, ← hvalue]
    have hsum : τ (u.newSymbol .slack).1 = (τ (u.newSymbol .slack).1 - v) + v := by ring
    rw [hsum]
    exact (abs_add_le _ _).trans (by linarith)

/-- If the artificial variable has left, then it is set to zero. -/
theorem takes_dropArtificial (hw : Retraces j Reach.id ∅ (u.host r) w) (hp : w.Proper)
    (hrow : w.tableau.row? (u.newSymbol .slack).1 = none) :
    Takes (j + 1) r u (w.dropArtificial (u.newSymbol .slack).1) := by
  refine takes_of_small hu hr hw (Tableau.symbolCount_le_of_knows
    (fun x hx => (rowStable_knows x).dropArtificial _ _ hx)) (fun σ hσ => ?_)
  exact ⟨0, by rw [abs_zero]; exact Coarse.epsilon_pos.le, hp.meets_dropArtificial hrow hσ⟩

/-- If the artificial variable has a row without symbols, then its value is that of the
row. -/
theorem takes_dropRow (hw : Retraces j Reach.id ∅ (u.host r) w) (hp : w.Proper)
    (hmem : ((u.newSymbol .slack).1, q) ∈ w.tableau.basics) (hcells : q.cells.isEmpty = true)
    (hsmall : Scalar.nearZero q.constant = true) :
    Takes (j + 1) r u (w.dropRow (u.newSymbol .slack).1) := by
  refine takes_of_small hu hr hw (Tableau.symbolCount_le_of_knows
    (fun x hx => knows_dropRow.mpr hx)) (fun σ hσ => ⟨q.exact.eval σ, ?_, ?_⟩)
  · have hvalue : q.exact.eval σ = q.constant.value := by
      rw [Row.eval_eq, Row.exact, List.isEmpty_iff.mp hcells]
      exact add_zero _
    rw [hvalue]
    exact (Coarse.abs_lt_of_nearZero hsmall).le
  · exact hp.meets_dropRow hmem hσ

/-- A probe that is settled with success takes its row in. -/
theorem Attempted.takes_settleProbe (h : Attempted (u.host r) (u.newSymbol .slack).1 j w)
    (hok : (({ w with artificial := none } : Solver Coarse).settleProbe (u.newSymbol .slack).1
      (w.artificial.any (fun r => Scalar.nearZero r.constant))).1 = true) :
    Takes (j + 2) r u (({ w with artificial := none } : Solver Coarse).settleProbe
      (u.newSymbol .slack).1 (w.artificial.any (fun r => Scalar.nearZero r.constant))).2 := by
  have hproper : Proper { w with artificial := none } := h.pivoted.proper.withArtificial
  have hback : Retraces j Reach.id ∅ (u.host r) { w with artificial := none } :=
    ⟨h.pivoted.retraces.count, h.pivoted.retraces.back⟩
  unfold Solver.settleProbe at hok ⊢
  split at hok
  · rename_i hrow
    exact (takes_dropArtificial hu hr hback hproper hrow).mono (by omega)
  · rename_i q hrow
    dsimp only at hok ⊢
    have hmem : ((u.newSymbol .slack).1, q) ∈ w.tableau.basics :=
      Tableau.mem_basics_iff.mpr ⟨h.knows, hrow⟩
    obtain ⟨hart, hsolid⟩ : w.artificial = some q ∧ q.Solid := by
      rcases h.aligned with ⟨p, hp, hart, hsolid⟩ | ⟨hnone, -⟩
      · obtain rfl : p = q := Option.some.inj (hp.symm.trans hrow)
        exact ⟨hart, hsolid⟩
      · cases hnone.symm.trans hrow
    split at hok
    · rename_i hconst
      rw [if_pos hconst]
      -- the row without symbols is the objective, which is near zero
      rw [hart] at hok
      exact (takes_dropRow hu hr hback hproper hmem hconst hok).mono (by omega)
    · rename_i hconst
      rw [if_neg hconst]
      split at hok
      · cases hok
      · rename_i y hy
        obtain ⟨hin, -⟩ := mem_symbols_of_firstPivotable? hy
        have hknows := ((h.pivoted.proper.rows.admits_coarse hmem).parametric y hin).1
        have hne := h.pivoted.proper.id_ne_of_basic h.knows hrow hin
        have hpivoted : Pivoted (u.host r) j { w with artificial := none } :=
          ⟨hproper, hback⟩
        have hlast := hpivoted.pivot hmem (hsolid.coefficient_ne_zero hin)
        exact takes_dropArtificial hu hr hlast.retraces hlast.proper
          (row?_pivot_leaving (w := { w with artificial := none }) hknows hne)

/-- A probe that succeeds takes its row in, and one that breaks down loses as much as its
limit allows. -/
theorem takes_probe (hsolid : r.Solid) (limit : Nat) :
    Ensures (probe limit u r) (fun p => (p.2 = .ok true → Takes (limit + 2) r u p.1) ∧
      ∀ why, p.2 = .error why → Retraces limit Reach.id ∅ u p.1) := by
  have hfirst : Retraces 0 Reach.id ∅ u (u.host r) :=
    retraces_of_meets (Tableau.symbolCount_le_of_knows
      (fun x hx => Tableau.knows_insert.mpr (hx.newSymbol .slack)))
      (fun σ _ _ hσ hb => ⟨σ, (meets_host hσ).2, hb, fun _ _ => rfl⟩)
  unfold Solver.probe
  refine Ensures.map (((attempted_host hu hr hsolid).optimize limit).mono ?_)
  rintro ⟨w, answer⟩ hw
  rw [Nat.zero_add] at hw
  cases answer with
  | error why =>
      refine ⟨fun hok => (by cases hok), fun _ _ => ?_⟩
      have htrans := hfirst.trans hw.pivoted.retraces
      rwa [Nat.zero_add, Reach.id_comp, Set.union_empty] at htrans
  | ok done =>
      exact ⟨fun hok => hw.takes_settleProbe hu hr (Except.ok.inj hok),
        fun why hwhy => by cases hwhy⟩

end Settling

end Solver

end Tether
