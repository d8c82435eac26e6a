import Tether.Proofs.Drift.Reach

/-!
# Retracing losses

The values of a coarse solver solve its own rows exactly, and they solve the rows of before
approximately: an operation that drops cells moves the basic symbols by what the dropped
cells come to.  So from the values after an operation one gets back to values that solve the
rows before it, and how far they are from each other is a matter of how large they are.

One solver retraces another if this works with given losses: so many eliminations have
dropped cells, values may have been as large as a reach allows, and some symbols have been
given up and may have any values.
-/

namespace Tether

open Simplex

namespace Simplex
namespace Tableau

variable {t : Tableau Coarse} {σ τ : Symbol → Rat} {r : Row Coarse} {x : Symbol} {d : Rat}

section Meeting

/-- The assignment gives every basic symbol the value of its row in rational numbers. -/
def Meets (t : Tableau Coarse) (σ : Symbol → Rat) : Prop :=
  ∀ b ∈ t.basics, σ b.1 = b.2.exact.eval σ

/-- The assignment in which the basic symbols have the values of their rows. -/
def refill (t : Tableau Coarse) (σ : Symbol → Rat) (x : Symbol) : Rat :=
  (t.basics.find? (fun b => b.1 == x)).elim (σ x) (fun b => b.2.exact.eval σ)

theorem refill_of_mem (σ : Symbol → Rat) (hb : (x, r) ∈ t.basics) :
    t.refill σ x = r.exact.eval σ := by
  obtain ⟨d, hd⟩ : ∃ d, t.basics.find? (fun b => b.1 == x) = some d :=
    Option.isSome_iff_exists.mp (List.find?_isSome.mpr ⟨(x, r), hb, beq_self_eq_true x⟩)
  have hx : d.1 = x := by simpa using List.find?_some hd
  have hrow := (mem_basics_iff.mp (List.mem_of_find?_eq_some hd)).2
  rw [hx, (mem_basics_iff.mp hb).2] at hrow
  rw [refill, hd, Option.some.inj hrow]
  rfl

theorem refill_of_parametric (σ : Symbol → Rat) (h : t.row? x = none) :
    t.refill σ x = σ x := by
  have hnone : t.basics.find? (fun b => b.1 == x) = none := by
    refine List.find?_eq_none.mpr (fun b hb he => ?_)
    exact ne_of_mem_basics h hb (beq_iff_eq.mp he)
  rw [refill, hnone]
  rfl

/-- Rows do not depend on the values of basic symbols. -/
theorem Admits.eval_refill (h : t.Admits r) (σ : Symbol → Rat) :
    r.exact.eval (t.refill σ) = r.exact.eval σ := by
  refine Row.eval_congr (fun y hy => refill_of_parametric σ (h.parametric y ?_).2)
  rwa [Row.symbols_exact] at hy

theorem Solved.admits_coarse (h : t.Solved) {b : Symbol × Row Coarse} (hb : b ∈ t.basics) :
    t.Admits b.2 :=
  h b.1.id b.2 (mem_basics_iff.mp hb).2

theorem Solved.meets_refill (h : t.Solved) (σ : Symbol → Rat) : t.Meets (t.refill σ) := by
  intro b hb
  rw [refill_of_mem σ hb, (h.admits_coarse hb).eval_refill]

/-- Values that solve the rows approximately are close to values that solve them. -/
theorem abs_refill_sub_le (hd : 0 ≤ d) (h : ∀ b ∈ t.basics, |b.2.exact.eval σ - σ b.1| ≤ d)
    (x : Symbol) : |t.refill σ x - σ x| ≤ d := by
  by_cases hx : ∃ r, (x, r) ∈ t.basics
  · obtain ⟨r, hr⟩ := hx
    rw [refill_of_mem σ hr]
    exact h (x, r) hr
  · have hnone : t.basics.find? (fun b => b.1 == x) = none := by
      refine List.find?_eq_none.mpr (fun b hb he => hx ⟨b.2, ?_⟩)
      rwa [← beq_iff_eq.mp he]
    rw [refill, hnone]
    simpa using hd

/-- An admitted row has at most one cell for each symbol. -/
theorem Admits.length_le (h : t.Admits r) : r.cells.length ≤ t.symbolCount := by
  have hknows : ∀ c ∈ r.cells, t.Knows c.1 :=
    fun c hc => (h.parametric c.1 (Row.mem_symbols_iff.mpr ⟨c.2, hc⟩)).1
  have hnodup : (r.cells.map (fun c => c.1.id)).Nodup := by
    refine List.pairwise_map.mpr (h.ordered.imp_of_mem (fun ha hb hab hid => hab.2 ?_))
    exact (hknows _ ha).eq_of_id_eq (hknows _ hb) hid
  have hsub : r.cells.map (fun c => c.1.id) ⊆ List.range t.symbolCount := by
    intro id hid
    obtain ⟨c, hc, rfl⟩ := List.mem_map.mp hid
    exact List.mem_range.mpr (hknows c hc).id_lt
  simpa using (List.subperm_of_subset hnodup hsub).length_le

end Meeting

end Tableau
end Simplex

section Counting

/-- A tableau that knows the symbols of another one has as many. -/
theorem Simplex.Tableau.symbolCount_le_of_knows {α : Type} {t t' : Tableau α}
    (h : ∀ x, t.Knows x → t'.Knows x) : t.symbolCount ≤ t'.symbolCount := by
  by_contra hlt
  have hsome : t.kindAt? t'.symbolCount ≠ none :=
    fun hn => hlt (Tableau.kindAt?_eq_none_iff.mp hn)
  obtain ⟨kind, hkind⟩ := Option.ne_none_iff_exists'.mp hsome
  exact Nat.lt_irrefl _ (h ⟨_, kind⟩ hkind).id_lt

end Counting

namespace Solver

variable {s u w : Solver Coarse} {σ τ : Symbol → Rat} {r q : Row Coarse} {x y : Symbol}
  {j i : Nat} {M : Rat} {F G : Reach} {X Y : Set Symbol}

section Retracing

/-- By how much values may grow in one elimination among so many symbols. -/
def growth (n : Nat) : Rat :=
  1 + n * Coarse.epsilon

theorem one_le_growth (n : Nat) : 1 ≤ growth n := by
  have := Coarse.epsilon_pos
  unfold growth
  have : 0 ≤ (n : Rat) * Coarse.epsilon := by positivity
  linarith

theorem one_le_growth_pow (n j : Nat) : 1 ≤ growth n ^ j :=
  one_le_pow₀ (one_le_growth n)

theorem growth_pow_sub_one_nonneg (n j : Nat) : 0 ≤ growth n ^ j - 1 :=
  sub_nonneg.mpr (one_le_growth_pow n j)

/-- More eliminations lose more. -/
theorem growth_pow_sub_one_mul_le (n : Nat) (hM : 0 ≤ M) (hj : j ≤ i) :
    (growth n ^ j - 1) * M ≤ (growth n ^ i - 1) * M := by
  have hpow : growth n ^ j ≤ growth n ^ i := pow_le_pow_right₀ (one_le_growth n) hj
  gcongr

/-- One more elimination loses the tolerance of every value that there is by then. -/
theorem growth_pow_succ_sub_one (n j : Nat) (M : Rat) :
    (growth n ^ (j + 1) - 1) * M =
      (growth n ^ j - 1) * M + n * (Coarse.epsilon * (growth n ^ j * M)) := by
  rw [pow_succ]
  nth_rewrite 2 [growth]
  ring

/-- What is lost from bounded values does not grow beyond the growth. -/
theorem bounded_of_losses {n : Nat} (h : Row.Bounded M σ)
    (hclose : ∀ x, |τ x - σ x| ≤ (growth n ^ j - 1) * M) :
    Row.Bounded (growth n ^ j * M) τ :=
  (h.of_close hclose).mono (le_of_eq (by ring))

/-- More eliminations lose more of larger values. -/
theorem losses_mono (n : Nat) (hM : 0 ≤ M) (hj : j ≤ i) (hF : F ≤ G) :
    (growth n ^ j - 1) * F.bound M ≤ (growth n ^ i - 1) * G.bound M :=
  (growth_pow_sub_one_mul_le n (F.bound_nonneg hM) hj).trans
    (mul_le_mul_of_nonneg_left (hF M hM) (growth_pow_sub_one_nonneg n i))

/-- What has grown in later eliminations is reached in proportion. -/
theorem bound_growth_le (F G : Reach) (hM : 1 ≤ M) (n i : Nat) :
    F.bound (growth n ^ i * G.bound M) ≤ growth n ^ i * (F.comp G).bound M :=
  F.proportional _ _ (one_le_growth_pow n i) (zero_le_one.trans (G.one_le_bound hM))

/-- The losses of earlier eliminations, at values that have grown in later ones, and those of
the later ones are the losses of all of them. -/
theorem losses_comp_le (F G : Reach) (hM : 1 ≤ M) (n j i : Nat) :
    (growth n ^ j - 1) * F.bound (growth n ^ i * G.bound M) + (growth n ^ i - 1) * G.bound M ≤
      (growth n ^ (j + i) - 1) * (F.comp G).bound M := by
  have hlarger : G.bound M ≤ (F.comp G).bound M :=
    F.enlarges _ (zero_le_one.trans (G.one_le_bound hM))
  calc (growth n ^ j - 1) * F.bound (growth n ^ i * G.bound M) + (growth n ^ i - 1) * G.bound M
      ≤ (growth n ^ j - 1) * (growth n ^ i * (F.comp G).bound M) +
          (growth n ^ i - 1) * (F.comp G).bound M :=
        add_le_add
          (mul_le_mul_of_nonneg_left (bound_growth_le F G hM n i) (growth_pow_sub_one_nonneg n j))
          (mul_le_mul_of_nonneg_left hlarger (growth_pow_sub_one_nonneg n i))
    _ = (growth n ^ (j + i) - 1) * (F.comp G).bound M := by
        rw [pow_add]
        ring

/-- Bounded values that solve the one tableau come from values that solve another one: after
so many eliminations with losses, from values that may have been as large as the reach
allows, and except for the values of symbols that have been given up. -/
structure Retraces (j : Nat) (F : Reach) (X : Set Symbol) (s w : Solver Coarse) : Prop where
  count : s.tableau.symbolCount ≤ w.tableau.symbolCount
  back : ∀ n, w.tableau.symbolCount ≤ n → ∀ σ M, 1 ≤ M → w.tableau.Meets σ → Row.Bounded M σ →
    ∃ τ, s.tableau.Meets τ ∧ Row.Bounded (growth n ^ j * F.bound M) τ ∧
      ∀ x, x ∉ X → |τ x - σ x| ≤ (growth n ^ j - 1) * F.bound M

/-- Nothing is lost where nothing is dropped. -/
theorem retraces_of_meets (hcount : s.tableau.symbolCount ≤ w.tableau.symbolCount)
    (h : ∀ σ M, 1 ≤ M → w.tableau.Meets σ → Row.Bounded M σ → ∃ τ, s.tableau.Meets τ ∧
      Row.Bounded (F.bound M) τ ∧ ∀ x, x ∉ X → τ x = σ x) : Retraces 0 F X s w := by
  refine ⟨hcount, fun n _ σ M hM hσ hb => ?_⟩
  obtain ⟨τ, hτ, hbτ, hX⟩ := h σ M hM hσ hb
  refine ⟨τ, hτ, by rwa [pow_zero, one_mul], fun x hx => ?_⟩
  rw [hX x hx, sub_self, abs_zero, pow_zero, sub_self, zero_mul]

theorem Retraces.refl (s : Solver Coarse) : Retraces 0 Reach.id ∅ s s :=
  retraces_of_meets (Nat.le_refl _) (fun σ _ _ hσ hb => ⟨σ, hσ, hb, fun _ _ => rfl⟩)

/-- Losses of one solver after another add up, and their reaches compose. -/
theorem Retraces.trans (h : Retraces j F X s u) (h' : Retraces i G Y u w) :
    Retraces (j + i) (F.comp G) (X ∪ Y) s w := by
  refine ⟨h.count.trans h'.count, fun n hn σ M hM hσ hb => ?_⟩
  obtain ⟨τ, hτ, hbτ, hX⟩ := h'.back n hn σ M hM hσ hb
  obtain ⟨υ, hυ, hbυ, hY⟩ := h.back n (h'.count.trans hn) τ _
    (one_le_mul_of_one_le_of_one_le (one_le_growth_pow n i) (G.one_le_bound hM)) hτ hbτ
  refine ⟨υ, hυ, hbυ.mono ?_, fun x hx => ?_⟩
  · rw [pow_add, mul_assoc]
    exact mul_le_mul_of_nonneg_left (bound_growth_le F G hM n i)
      (zero_le_one.trans (one_le_growth_pow n j))
  · rw [Set.mem_union, not_or] at hx
    have hsum : υ x - σ x = (υ x - τ x) + (τ x - σ x) := by ring
    rw [hsum]
    exact ((abs_add_le _ _).trans (add_le_add (hY x hx.1) (hX x hx.2))).trans
      (losses_comp_le F G hM n j i)

/-- Fewer eliminations and fewer symbols are retraced as well, with a larger reach. -/
theorem Retraces.mono (h : Retraces j F X s w) (hj : j ≤ i) (hF : F ≤ G) (hX : X ⊆ Y) :
    Retraces i G Y s w := by
  refine ⟨h.count, fun n hn σ M hM hσ hb => ?_⟩
  have hM₀ : 0 ≤ M := zero_le_one.trans hM
  have hpow : growth n ^ j ≤ growth n ^ i := pow_le_pow_right₀ (one_le_growth n) hj
  obtain ⟨τ, hτ, hbτ, hclose⟩ := h.back n hn σ M hM hσ hb
  refine ⟨τ, hτ, hbτ.mono ?_, fun x hx =>
    (hclose x (fun hin => hx (hX hin))).trans (losses_mono n hM₀ hj hF)⟩
  exact mul_le_mul hpow (hF M hM₀) (F.bound_nonneg hM₀)
    (zero_le_one.trans (one_le_growth_pow n i))

end Retracing

section Eliminating

/-- A basic symbol is in no row. -/
theorem Proper.notMem_of_basic (h : s.Proper) (hx : (x, r) ∈ s.tableau.basics)
    {b : Symbol × Row Coarse} (hb : b ∈ s.tableau.basics) : x ∉ b.2.symbols := by
  intro hm
  have hn := ((h.rows.admits_coarse hb).parametric x hm).2
  rw [(Tableau.mem_basics_iff.mp hx).2] at hn
  cases hn

/-- Values that solve the rows of before approximately retrace one elimination. -/
theorem retraces_of_defect (hs : s.tableau.Solved)
    (hcount : s.tableau.symbolCount ≤ w.tableau.symbolCount)
    (h : ∀ σ M, 1 ≤ M → w.tableau.Meets σ → Row.Bounded M σ → ∃ τ, Row.Bounded (F.bound M) τ ∧
      (∀ x, x ∉ X → τ x = σ x) ∧ ∀ b ∈ s.tableau.basics, |b.2.exact.eval τ - τ b.1| ≤
        s.tableau.symbolCount * (Coarse.epsilon * F.bound M)) : Retraces 1 F X s w := by
  refine ⟨hcount, fun n hn σ M hM hσ hb => ?_⟩
  obtain ⟨τ, hbτ, hX, hdefect⟩ := h σ M hM hσ hb
  have hε := Coarse.epsilon_pos
  have hbound : 0 ≤ F.bound M := F.bound_nonneg (zero_le_one.trans hM)
  have hmore : (s.tableau.symbolCount : Rat) * (Coarse.epsilon * F.bound M) ≤
      n * (Coarse.epsilon * F.bound M) := by
    have hcast : (s.tableau.symbolCount : Rat) ≤ n := Nat.cast_le.mpr (hcount.trans hn)
    gcongr
  have hclose : ∀ x, |s.tableau.refill τ x - τ x| ≤ n * (Coarse.epsilon * F.bound M) :=
    Tableau.abs_refill_sub_le (by positivity) (fun b hb => (hdefect b hb).trans hmore)
  refine ⟨s.tableau.refill τ, hs.meets_refill τ, (hbτ.of_close hclose).mono (le_of_eq ?_),
    fun x hx => ?_⟩
  · rw [pow_one, growth]
    ring
  · rw [← hX x hx, pow_one, growth]
    exact (hclose x).trans (le_of_eq (by ring))

/-- The rows after a substitution are close to those of before. -/
theorem Proper.abs_defect_le (h : s.Proper) (hx : s.tableau.row? x = none)
    (hσ : (s.substitute x q).tableau.Meets σ) (hb : Row.Bounded M σ)
    {b : Symbol × Row Coarse} (hmem : b ∈ s.tableau.basics) :
    |b.2.exact.eval (Function.update σ x (q.exact.eval σ)) -
      Function.update σ x (q.exact.eval σ) b.1| ≤ q.cells.length * (Coarse.epsilon * M) := by
  rw [Function.update_of_ne (Tableau.ne_of_mem_basics hx hmem), abs_sub_comm]
  have hrow : σ b.1 = (b.2.substitute x q).exact.eval σ :=
    hσ (b.1, b.2.substitute x q) (mem_basics_substitute.mpr ⟨b.2, hmem, rfl⟩)
  rw [hrow]
  exact Row.abs_eval_substitute_le hb (h.rows.admits_coarse hmem).ordered x q

theorem meets_enter (hx : s.tableau.Parametric x) (hσ : (s.enter x q).tableau.Meets σ) :
    σ x = q.exact.eval σ ∧ (s.substitute x q).tableau.Meets σ := by
  refine ⟨hσ (x, q) ((mem_basics_enter hx.1).mpr (Or.inl rfl)), fun b hb => ?_⟩
  obtain ⟨r, hr, he⟩ := mem_basics_substitute.mp hb
  refine hσ b ((mem_basics_enter hx.1).mpr (Or.inr ⟨?_, r, hr, he⟩))
  exact Tableau.ne_of_mem_basics (b := (b.1, r)) hx.2 hr

end Eliminating

section Pivoting

variable {leaving entering : Symbol}

/-- The equation of a symbol that left is that of the one that entered. -/
theorem Proper.exchange_iff (h : s.Proper) (hl : (leaving, r) ∈ s.tableau.basics)
    (ha : r.exact.coefficient entering ≠ 0) (σ : Symbol → Rat) :
    σ entering = (r.exchange leaving entering).exact.eval σ ↔ σ leaving = r.exact.eval σ := by
  have hnot : leaving ∉ r.symbols := h.notMem_of_basic hl hl
  have hr := (h.rows.admits_coarse hl).ordered
  have hm := Row.mem_symbols_of_exact ha
  rw [Row.exact_exchange hr hnot]
  exact eval_exchange_eq_iff hr.exact (fun he => hnot (he ▸ hm)) ha

theorem Proper.length_exchange_le (h : s.Proper) (hl : (leaving, r) ∈ s.tableau.basics)
    (entering : Symbol) :
    ((r.exchange leaving entering).cells.length : Rat) ≤ s.tableau.symbolCount := by
  obtain ⟨hk, hr⟩ := Tableau.mem_basics_iff.mp hl
  have hadmits : (s.dropRow leaving).tableau.Admits (r.exchange leaving entering) :=
    h.admits_exchange hk hr
  exact Nat.cast_le.mpr (hadmits.length_le.trans
    (Tableau.symbolCount_le_of_knows (fun _ hx => knows_dropRow.mp hx)))

/-- After an exchange the rows of before, that of the leaving symbol included, are close to
the values of their symbols. -/
theorem Proper.exchanged_defect_le (h : s.Proper) (hl : (leaving, r) ∈ s.tableau.basics)
    (hp : (s.dropRow leaving).tableau.row? entering = none)
    (ha : r.exact.coefficient entering ≠ 0)
    (hσ : ((s.dropRow leaving).substitute entering
      (r.exchange leaving entering)).tableau.Meets σ)
    (hb : Row.Bounded M σ)
    (hτ : τ = Function.update σ entering ((r.exchange leaving entering).exact.eval σ)) :
    ∀ b ∈ s.tableau.basics, |b.2.exact.eval τ - τ b.1| ≤
      s.tableau.symbolCount * (Coarse.epsilon * M) := by
  have hM : 0 ≤ M := (abs_nonneg _).trans (hb leaving)
  have hε := Coarse.epsilon_pos
  intro b hmem
  by_cases hbl : b.1 = leaving
  · have hrow : b.2 = r := by
      have hr := (Tableau.mem_basics_iff.mp hmem).2
      rw [hbl, (Tableau.mem_basics_iff.mp hl).2] at hr
      exact (Option.some.inj hr).symm
    have hnot : entering ∉ (r.exchange leaving entering).symbols :=
      fun hm => ((h.rows.admits_coarse hl).ordered.mem_symbols_exchange hm).1 rfl
    have hent : τ entering = (r.exchange leaving entering).exact.eval τ := by
      rw [hτ, Function.update_self, Row.eval_update_of_notMem (by rwa [Row.symbols_exact])]
    rw [hbl, hrow, (h.exchange_iff hl ha τ).mp hent, sub_self, abs_zero]
    positivity
  · have hdrop := (mem_basics_dropRow (Tableau.mem_basics_iff.mp hl).1).mpr ⟨hmem, hbl⟩
    rw [hτ]
    refine ((h.dropRow leaving).abs_defect_le hp hσ hb hdrop).trans ?_
    have hlength := h.length_exchange_le hl entering
    gcongr

/-- A pivot is one elimination. -/
theorem Proper.retraces_pivot (h : s.Proper) (hl : (leaving, r) ∈ s.tableau.basics)
    (ha : r.exact.coefficient entering ≠ 0) :
    Retraces 1 Reach.id ∅ s ((s.dropRow leaving).pivot leaving entering r) := by
  have hm := Row.mem_symbols_of_exact ha
  have hp := ((h.rows.admits_coarse hl).parametric entering hm).erase leaving
  refine retraces_of_defect h.rows (Tableau.symbolCount_le_of_knows
    (fun x hx => knows_enter.mpr (knows_dropRow.mpr hx))) (fun σ M _ hσ hb => ?_)
  obtain ⟨hent, hsub⟩ := meets_enter hp hσ
  refine ⟨σ, hb, fun _ _ => rfl, ?_⟩
  exact h.exchanged_defect_le hl hp.2 ha hsub hb (by rw [← hent, Function.update_eq_self])

/-- Taking out the equation of a parametric symbol is one elimination, and it gives the
symbol up. -/
theorem Proper.retraces_giveWay (h : s.Proper) (hl : (leaving, r) ∈ s.tableau.basics)
    (ha : r.exact.coefficient x ≠ 0) :
    Retraces 1 (Reach.ofRow (r.exchange leaving x)) {x} s
      ((s.dropRow leaving).substitute x (r.exchange leaving x)) := by
  have hm := Row.mem_symbols_of_exact ha
  have hp := ((h.rows.admits_coarse hl).parametric x hm).erase leaving
  refine retraces_of_defect h.rows (Tableau.symbolCount_le_of_knows
    (fun y hy => knows_substitute.mpr (knows_dropRow.mpr hy))) (fun σ M hM hσ hb => ?_)
  refine ⟨_, hb.fill (r.exchange leaving x) x, fun y hy => Function.update_of_ne hy _ _,
    fun b hmem => (h.exchanged_defect_le hl hp.2 ha hσ hb rfl b hmem).trans ?_⟩
  have hε := Coarse.epsilon_pos
  have hlarger := (Reach.ofRow (r.exchange leaving x)).enlarges M (zero_le_one.trans hM)
  gcongr

end Pivoting

section Dropping

/-- How large values may have been if the row of a symbol is dropped. -/
def rowReach (s : Solver Coarse) (x : Symbol) : Reach :=
  (s.tableau.row? x).elim Reach.id Reach.ofRow

/-- A row that has been dropped says which value its symbol had. -/
theorem Proper.meets_dropRow (h : s.Proper) (hl : (x, r) ∈ s.tableau.basics)
    (hσ : (s.dropRow x).tableau.Meets σ) :
    s.tableau.Meets (Function.update σ x (r.exact.eval σ)) := by
  obtain ⟨hk, hrow⟩ := Tableau.mem_basics_iff.mp hl
  intro b hmem
  have hnot : x ∉ b.2.exact.symbols := by
    rw [Row.symbols_exact]
    exact h.notMem_of_basic hl hmem
  rw [Row.eval_update_of_notMem hnot]
  by_cases hbx : b.1 = x
  · have hr := (Tableau.mem_basics_iff.mp hmem).2
    rw [hbx, hrow] at hr
    rw [hbx, Function.update_self, Option.some.inj hr]
  · rw [Function.update_of_ne hbx]
    exact hσ b ((mem_basics_dropRow hk).mpr ⟨hmem, hbx⟩)

/-- Dropping the row of a symbol loses nothing and gives the symbol up. -/
theorem Proper.retraces_dropRow (h : s.Proper) (hx : s.tableau.Knows x) :
    Retraces 0 (s.rowReach x) {x} s (s.dropRow x) := by
  refine retraces_of_meets (Tableau.symbolCount_le_of_knows (fun _ hy => knows_dropRow.mpr hy))
    (fun σ M _ hσ hb => ?_)
  unfold rowReach
  cases hrow : s.tableau.row? x with
  | none =>
      refine ⟨σ, fun b hmem => ?_, hb, fun _ _ => rfl⟩
      exact hσ b ((mem_basics_dropRow hx).mpr ⟨hmem, Tableau.ne_of_mem_basics hrow hmem⟩)
  | some r =>
      exact ⟨_, h.meets_dropRow (Tableau.mem_basics_iff.mpr ⟨hx, hrow⟩) hσ, hb.fill r x,
        fun y hy => Function.update_of_ne hy _ _⟩

end Dropping

end Solver
end Tether
