import Tether.Proofs.Exact.Hosting

/-!
# Probing

A row without a subject is hosted by an artificial variable, whose value is what
the row misses zero by.  Lowering that value as far as it goes decides whether
the row is zero at any lawful solution.  If it is, then the artificial variable
can be taken out again:

* a parametric artificial variable is set to zero;
* one whose row is zero can lose that row;
* in any other case its row mentions a restricted symbol, since the row that was
  probed does, and that symbol takes its place without changing any value.
-/

namespace Tether
namespace Solver

open Simplex

variable {u w : Solver Rat} {r q : Row Rat} {a x : Symbol} {σ : Symbol → Rat} {v : Rat}

section New

theorem eval_update_of_not_knows (hr : u.tableau.Admits r) (hnew : ¬ u.tableau.Knows a)
    (σ : Symbol → Rat) (v : Rat) : r.eval (Function.update σ a v) = r.eval σ :=
  Row.eval_update_of_notMem (fun h => hnew (hr.parametric a h).1) σ v

theorem solves_update_of_not_knows (hp : u.Proper) (hnew : ¬ u.tableau.Knows a) :
    u.tableau.Solves (Function.update σ a v) ↔ u.tableau.Solves σ := by
  refine forall₂_congr (fun b hb => ?_)
  have hne : b.1 ≠ a := by
    rintro rfl
    exact hnew (Tableau.mem_basics_iff.mp hb).1
  rw [Function.update_of_ne hne, eval_update_of_not_knows (hp.rows.admits hb) hnew]

end New

section Artificial

/-- A solver in which an artificial variable has the value of a row, and which is
like another one for the rest. -/
structure Probed (u : Solver Rat) (r : Row Rat) (a : Symbol) (w : Solver Rat) : Prop where
  layered : w.Layered
  feasible : w.Feasible
  knows : ∀ x, w.tableau.Knows x ↔ u.tableau.Knows x ∨ x = a
  solves : ∀ σ, w.tableau.Solves σ ↔ σ a = r.eval σ ∧ u.tableau.Solves σ
  objective : ∀ σ, w.tableau.Solves σ → w.objective.eval σ = u.objective.eval σ

theorem Probed.of_lowering {w' : Solver Rat} (h : Probed u r a w) (hl : Lowering w w') :
    Probed u r a w' where
  layered := hl.layered
  feasible := hl.feasible
  knows := fun x => (hl.equivalent.knows x).trans (h.knows x)
  solves := fun σ => (hl.equivalent.solves σ).trans (h.solves σ)
  objective := fun σ hσ => by
    have hσ := (hl.equivalent.solves σ).mp hσ
    rw [hl.equivalent.objective σ hσ, h.objective σ hσ]

theorem Probed.withArtificial (h : Probed u r a w) :
    Probed u r a { w with artificial := none } where
  layered := ⟨h.layered.proper.withArtificial, h.layered.rows, h.layered.objective, by simp⟩
  feasible := h.feasible
  knows := h.knows
  solves := h.solves
  objective := h.objective

/-- At zero the artificial variable says that the row is zero. -/
theorem Probed.solves_update (h : Probed u r a w) (hp : u.Proper) (hr : u.tableau.Admits r)
    (hnew : ¬ u.tableau.Knows a) (σ : Symbol → Rat) :
    w.tableau.Solves (Function.update σ a 0) ↔ u.tableau.Solves σ ∧ r.eval σ = 0 := by
  rw [h.solves, Function.update_self, eval_update_of_not_knows hr hnew,
    solves_update_of_not_knows hp hnew, and_comm, eq_comm]

theorem Probed.objective_update (h : Probed u r a w) (hp : u.Proper)
    (hnew : ¬ u.tableau.Knows a) (hσ : w.tableau.Solves (Function.update σ a 0)) :
    w.objective.eval (Function.update σ a 0) = u.objective.eval σ := by
  rw [h.objective _ hσ, eval_update_of_not_knows hp.objective hnew]

/-- A parametric artificial variable is set to zero. -/
theorem Probed.hosts_dropArtificial (h : Probed u r a w) (hp : u.Proper)
    (hr : u.tableau.Admits r) (hnew : ¬ u.tableau.Knows a) (hrow : w.tableau.row? a = none) :
    Hosts u r (w.dropArtificial a) := by
  have hsolves := fun σ => solves_dropArtificial (σ := σ) h.layered.proper hrow
  refine ⟨h.layered.dropArtificial a, ?_, fun σ => ?_, fun σ hσ => ?_⟩
  · intro b hb ht
    obtain ⟨p, hp', he⟩ := mem_basics_dropArtificial.mp hb
    rw [he]
    exact h.feasible _ hp' ht
  · rw [hsolves, h.solves_update hp hr hnew]
  · rw [← h.objective_update hp hnew ((hsolves σ).mp hσ),
      h.layered.proper.objective.ordered.eval_update]
    refine (Row.eval_erase w.objective a).trans ?_
    ring

/-- An artificial variable whose row is zero can lose that row. -/
theorem Probed.hosts_dropRow (h : Probed u r a w) (hp : u.Proper) (hr : u.tableau.Admits r)
    (hnew : ¬ u.tableau.Knows a) (hb : (a, q) ∈ w.tableau.basics) (hq : ∀ σ, q.eval σ = 0) :
    Hosts u r (w.dropRow a) := by
  have hsolves : ∀ σ, (w.dropRow a).tableau.Solves σ ↔
      w.tableau.Solves (Function.update σ a 0) := by
    intro σ
    rw [solves_dropRow h.layered.proper hb, hq]
  refine ⟨h.layered.dropRow a, h.feasible.dropRow a, fun σ => ?_, fun σ hσ => ?_⟩
  · rw [hsolves, h.solves_update hp hr hnew]
  · rw [← h.objective_update hp hnew ((hsolves σ).mp hσ)]
    refine (h.layered.proper.objective.eval_update ?_ σ 0).symm
    rw [(Tableau.mem_basics_iff.mp hb).2]
    simp

/-- A restricted symbol takes the place of an artificial variable at zero. -/
theorem Probed.pivot (h : Probed u r a w) (ha : a.tier = 1) (hb : (a, q) ∈ w.tableau.basics)
    (hx : x ∈ q.symbols) (ht : x.tier = 1) (hzero : q.constant = 0) :
    Probed u r a ((w.dropRow a).pivot a x q) ∧
      ((w.dropRow a).pivot a x q).tableau.row? a = none := by
  have hc : q.coefficient x ≠ 0 := (h.layered.rows _ hb).reduced.coefficient_ne_zero hx
  have hadmits := h.layered.proper.rows.admits hb
  have hne := h.layered.proper.ne_of_basic hb hx
  have hk := (hadmits.parametric x hx).1
  have hq : (q.exchange a x).constant = 0 := by
    rw [Row.constant_exchange hadmits.ordered hne hc, hzero, neg_zero, zero_div]
  refine ⟨h.of_lowering ⟨h.layered.pivot hb hc (ht.trans ha.symm), ?_,
    equivalent_pivot h.layered.proper hb hc⟩, ?_⟩
  · refine (h.layered.dropRow a).feasible_enter (knows_dropRow.mpr hk) (fun _ => hq.ge) ?_
    intro b hb' hbt
    rw [hq, mul_zero, add_zero]
    exact h.feasible b (mem_of_mem_basics_dropRow hb') hbt
  · have hid : x.id ≠ a.id := fun he =>
      hne ((Tableau.mem_basics_iff.mp hb).1.eq_of_id_eq hk he.symm)
    unfold Solver.pivot
    rw [Tableau.row?, rowAt?_enter (knows_dropRow.mpr hk), if_neg hid, rowAt?_dropRow,
      if_pos rfl]
    rfl

/-- If the row that is probed mentions a restricted symbol, then so does the row
of the artificial variable. -/
theorem Probed.exists_restricted (h : Probed u r a w) (hl : u.Layered)
    (hr : u.tableau.Admits r) (hnew : ¬ u.tableau.Knows a) (ha : a.tier = 1)
    (hw : r.Reduced) (hx : x ∈ r.symbols) (ht : x.tier = 1)
    (hb : (a, q) ∈ w.tableau.basics) : ∃ y ∈ q.symbols, y.tier = 1 := by
  by_contra hnone
  have hq : ∀ τ : Symbol → Rat, (∀ y, y.tier = 0 → τ y = 0) → r.eval τ = q.constant := by
    intro τ hτ
    have hfill := hl.proper.rows.solves_fill τ
    have hσ : w.tableau.Solves (Function.update (u.tableau.fill τ) a (r.eval τ)) := by
      rw [h.solves, Function.update_self, eval_update_of_not_knows hr hnew,
        solves_update_of_not_knows hl.proper hnew, hr.eval_fill]
      exact ⟨rfl, hfill⟩
    have hrow := hσ _ hb
    rw [Function.update_self] at hrow
    rw [hrow, ← Row.eval_zero q]
    refine Row.eval_congr (fun y hy => ?_)
    have hle := (h.layered.rows _ hb).tiers y hy
    have hy1 : y.tier ≠ 1 := fun he => hnone ⟨y, hy, he⟩
    have hy0 : y.tier = 0 := by
      dsimp only at hle
      omega
    have hya : y ≠ a := by
      rintro rfl
      exact hy1 ha
    have hk := ((h.layered.proper.rows.admits hb).parametric y hy).1
    rw [Function.update_of_ne hya]
    exact hl.fill_eq_zero hτ (((h.knows y).mp hk).resolve_right hya) hy0
  have hzero := hq 0 (fun _ _ => rfl)
  have hone := hq (Function.update 0 x 1) (by
    intro y hy
    have hne : y ≠ x := by
      rintro rfl
      omega
    rw [Function.update_of_ne hne, Pi.zero_apply])
  rw [hr.ordered.eval_update, Pi.zero_apply, sub_zero, mul_one] at hone
  exact hw.coefficient_ne_zero hx (by linarith)

end Artificial

section Settling

theorem settleProbe_false (w : Solver Rat) (a : Symbol) : (w.settleProbe a false).1 = false := by
  unfold Solver.settleProbe
  split
  · rfl
  · dsimp only
    split
    · rfl
    · split <;> rfl

/-- If the artificial variable is zero in the end, then the row is hosted without
it. -/
theorem Probed.settleProbe (h : Probed u r a w) (hl : u.Layered) (hr : u.tableau.Admits r)
    (hnew : ¬ u.tableau.Knows a) (ha : a.tier = 1) (hw : r.Reduced) (hx : x ∈ r.symbols)
    (ht : x.tier = 1) (hzero : w.tableau.fill 0 a = 0) :
    (w.settleProbe a true).1 = true ∧ Hosts u r (w.settleProbe a true).2 := by
  unfold Solver.settleProbe
  split
  · rename_i hrow
    exact ⟨rfl, h.hosts_dropArtificial hl.proper hr hnew hrow⟩
  · rename_i q hrow
    have hb := Tableau.mem_basics_iff.mpr ⟨(h.knows a).mpr (Or.inr rfl), hrow⟩
    have hq : q.constant = 0 := by
      rwa [Tableau.fill_of_basic hrow, Row.eval_zero] at hzero
    dsimp only
    split
    · rename_i hconst
      refine ⟨rfl, h.hosts_dropRow hl.proper hr hnew hb (fun σ => ?_)⟩
      rw [← hq, ← Row.eval_zero q]
      refine Row.eval_congr (fun y hy => ?_)
      obtain ⟨b, hb⟩ := Row.mem_symbols_iff.mp hy
      rw [List.isEmpty_iff.mp hconst] at hb
      cases hb
    · split
      · rename_i hnone
        obtain ⟨y, hy, hyt⟩ := h.exists_restricted hl hr hnew ha hw hx ht hb
        obtain ⟨b, hb⟩ := Row.mem_symbols_iff.mp hy
        have := List.find?_eq_none.mp (Option.map_eq_none_iff.mp hnone) _ hb
        exact absurd (Symbol.isPivotable_iff.mpr hyt) this
      · rename_i y hy
        obtain ⟨hm, hp⟩ := mem_symbols_of_firstPivotable? hy
        obtain ⟨hpivot, hrow'⟩ := h.pivot ha hb hm (Symbol.isPivotable_iff.mp hp) hq
        exact ⟨rfl, hpivot.hosts_dropArtificial hl.proper hr hnew hrow'⟩

/-- If the artificial variable is as low as it goes and not zero, then the row is
not zero at any lawful solution. -/
theorem Probed.ne_zero (h : Probed u r a w) (hl : u.Layered) (hr : u.tableau.Admits r)
    (hnew : ¬ u.tableau.Knows a) (ha : a.tier = 1) {g : Row Rat} (hg : w.tableau.Admits g)
    (hgw : g.Within 1) (hset : g.Settled)
    (heval : ∀ σ, w.tableau.Solves σ → g.eval σ = σ a) (hne : w.tableau.fill 0 a ≠ 0)
    (hσ : u.tableau.Solves σ) (hlaw : u.tableau.Lawful σ) : r.eval σ ≠ 0 := by
  intro hz
  have hsol := (h.solves_update hl.proper hr hnew σ).mpr ⟨hσ, hz⟩
  have hlaw' : w.tableau.Lawful (Function.update σ a 0) := by
    refine ⟨fun y hk hy => ?_, fun y hk hy => ?_⟩
    · by_cases hya : y = a
      · rw [hya, Function.update_self]
      · rw [Function.update_of_ne hya]
        exact hlaw.nonneg y (((h.knows y).mp hk).resolve_right hya) hy
    · by_cases hya : y = a
      · rw [hya, Function.update_self]
      · rw [Function.update_of_ne hya]
        exact hlaw.zero y (((h.knows y).mp hk).resolve_right hya) hy
  have hle := hset.constant_le hg hgw hlaw'
  rw [heval _ hsol, Function.update_self] at hle
  have hconst : g.constant = w.tableau.fill 0 a := by
    rw [← heval _ (h.layered.proper.rows.solves_fill 0), hg.eval_fill, Row.eval_zero]
  have hpos := (h.layered.lawful_basic h.feasible).nonneg a ((h.knows a).mpr (Or.inr rfl)) ha
  exact hne (by linarith)

end Settling

section Deciding

theorem probed_host (hl : u.Layered) (hf : u.Feasible) (hr : u.tableau.Admits r)
    (hw : r.Within 1) (hpos : 0 ≤ r.constant) :
    Probed u r (u.newSymbol .slack).1 (u.host r) := by
  have hnew := not_knows_newSymbol u
  refine ⟨⟨hl.proper.host hr .slack, ?_, hl.objective, ?_⟩, ?_, ?_, fun σ => ⟨?_, ?_⟩,
    fun _ _ => rfl⟩
  · intro b hb
    rcases mem_basics_host.mp hb with rfl | hb
    · exact hw
    · exact hl.rows b hb
  · intro p hp
    cases hp
    exact hw
  · intro b hb ht
    rcases mem_basics_host.mp hb with rfl | hb
    · exact hpos
    · exact hf b hb ht
  · exact fun x => Tableau.knows_insert.trans Tableau.knows_newSymbol_iff
  · intro hσ
    exact ⟨hσ _ (mem_basics_host.mpr (Or.inl rfl)),
      fun b hb => hσ b (mem_basics_host.mpr (Or.inr hb))⟩
  · rintro ⟨he, hσ⟩ b hb
    rcases mem_basics_host.mp hb with rfl | hb
    · exact he
    · exact hσ b hb

/-- A probe decides whether a row is zero at any lawful solution, and hosts the
row if it is. -/
theorem probe_decides (hl : u.Layered) (hf : u.Feasible) (hr : u.tableau.Admits r)
    (hw : r.Within 1) (hpos : 0 ≤ r.constant) (hx : x ∈ r.symbols) (ht : x.tier = 1)
    (limit : Nat) :
    Ensures (probe limit u r) (fun p => (p.2 = .ok true ∧ Hosts u r p.1) ∨
      (p.2 = .ok false ∧ ∀ σ, u.tableau.Solves σ → u.tableau.Lawful σ → r.eval σ ≠ 0)) := by
  have hnew := not_knows_newSymbol u
  have hhost := probed_host hl hf hr hw hpos
  have hbelow : (u.host r).BoundedBelow .artificial := by
    refine ⟨0, fun σ hσ hlaw g hg => ?_⟩
    obtain rfl : r = g := Option.some.inj hg
    rw [← ((hhost.solves σ).mp hσ).1]
    exact hlaw.nonneg _ ((hhost.knows _).mpr (Or.inr rfl)) rfl
  unfold Solver.probe
  refine Ensures.map ?_
  rintro ⟨w, answer⟩ hp
  obtain ⟨hok, hlow, hset⟩ := hhost.layered.optimize hhost.feasible .artificial
    (by simp [goalRow?, host]) hbelow limit (w, answer) hp
  obtain rfl : answer = .ok () := hok
  have hw' := hhost.of_lowering hlow
  have hgoal : ∀ σ, w.tableau.Solves σ →
      w.artificial.map (fun g => g.eval σ) = some (σ (u.newSymbol .slack).1) := by
    intro σ hσ
    rw [((hw'.solves σ).mp hσ).1]
    exact hlow.equivalent.artificial σ ((hlow.equivalent.solves σ).mp hσ)
  obtain ⟨g, hg, hgzero⟩ :=
    Option.map_eq_some_iff.mp (hgoal _ (hw'.layered.proper.rows.solves_fill 0))
  have hga := hw'.layered.proper.artificial g hg
  rw [hga.eval_fill, Row.eval_zero] at hgzero
  have heval : ∀ σ, w.tableau.Solves σ → g.eval σ = σ (u.newSymbol .slack).1 := by
    intro σ hσ
    have := hgoal σ hσ
    rw [hg, Option.map_some] at this
    exact Option.some.inj this
  dsimp only at hlow hw' ⊢
  rw [hg, Option.any_some]
  cases hz : Scalar.nearZero g.constant with
  | true =>
      refine Or.inl ?_
      obtain ⟨hok, hhosts⟩ := hw'.withArtificial.settleProbe hl hr hnew rfl hw.reduced hx ht
        (hgzero.symm.trans (Scalar.nearZero_iff.mp hz))
      exact ⟨congrArg Except.ok hok, hhosts⟩
  | false =>
      refine Or.inr ⟨congrArg Except.ok (settleProbe_false _ _), fun σ hσ hlaw => ?_⟩
      refine hw'.ne_zero hl hr hnew rfl hga (hw'.layered.artificial g hg) (hset g hg) heval ?_ hσ
        hlaw
      rw [← hgzero, ne_eq, ← Scalar.nearZero_iff, hz]
      exact Bool.false_ne_true

end Deciding

end Solver
end Tether
