import Tether.Proofs.Exact.Forgetting
import Tether.Proofs.Exact.Models

/-!
# Removal keeps a solver sound

Taking a constraint out leaves a solver that models the other constraints:
its weights leave the objective, its marker is freed, and neither the error
beside the marker nor a variable that nothing refers to plays a part in what is
left.  Lowering the objective again makes the solver sound.
-/

namespace Tether

open Simplex

section Independence

variable {c : Constraint Rat} {tag : Tag} {ν : Variable → Rat} {σ τ : Symbol → Rat}
  {x : Symbol} {v : Rat} {l l' : List (Constraint Rat × Tag)}

theorem Tag.elim_congr {f : Symbol → Rat} {g : Symbol → Rat} (h : ∀ x ∈ tag.symbols, f x = g x) :
    f tag.marker = g tag.marker ∧ tag.other.elim 0 f = tag.other.elim 0 g := by
  refine ⟨h _ (by simp [symbols]), ?_⟩
  cases ho : tag.other with
  | none => rfl
  | some o => exact h o (by simp [symbols, ho])

theorem Tag.balances_update (hx : x ∉ tag.symbols) :
    tag.Balances c ν (Function.update σ x v) ↔ tag.Balances c ν σ := by
  obtain ⟨hm, ho⟩ := Tag.elim_congr (f := Function.update σ x v) (g := σ) (fun y hy =>
    Function.update_of_ne (ne_of_mem_of_not_mem hy hx) v σ)
  unfold Tag.Balances
  rw [hm, ho]

/-- The marker can make up for what the rest of an equation lacks. -/
theorem Tag.exists_balances (hn : tag.symbols.Nodup) (σ : Symbol → Rat) :
    ∃ v, tag.Balances c ν (Function.update σ tag.marker v) := by
  have ho : ∀ v, tag.other.elim 0 (Function.update σ tag.marker v) = tag.other.elim 0 σ := by
    intro v
    cases hother : tag.other with
    | none => rfl
    | some o =>
        refine Function.update_of_ne ?_ v σ
        rintro rfl
        simp [symbols, hother] at hn
  refine ⟨tag.other.elim 0 σ - c.sense * c.expression.eval ν, ?_⟩
  unfold Tag.Balances
  rw [ho, Function.update_self]
  linear_combination -(c.expression.eval ν) * c.sense_mul_self

theorem Tag.missed_congr (h : ∀ x ∈ tag.symbols, x.isError = true → σ x = τ x) :
    tag.missed σ = tag.missed τ := by
  obtain ⟨hm, ho⟩ := Tag.elim_congr (f := Symbol.missed σ) (g := Symbol.missed τ) (fun x hx => by
    unfold Symbol.missed
    split
    · rename_i he
      exact h x hx he
    · rfl)
  rw [Tag.missed, Tag.missed, hm, ho]

theorem penalty_congr (h : ∀ e ∈ l, ∀ x ∈ e.2.symbols, x.isError = true → σ x = τ x) :
    penalty σ l = penalty τ l := by
  unfold penalty
  refine congrArg List.sum (List.map_congr_left (fun e he => ?_))
  rw [Tag.missed_congr (h e he)]

theorem penalty_update (hx : ∀ e ∈ l, x ∉ e.2.symbols) :
    penalty (Function.update σ x v) l = penalty σ l :=
  penalty_congr (fun e he _ hy _ => Function.update_of_ne (ne_of_mem_of_not_mem hy (hx e he)) v σ)

theorem penalty_cons (σ : Symbol → Rat) (e : Constraint Rat × Tag) :
    penalty σ (e :: l) = e.1.strength.value * e.2.missed σ + penalty σ l := by
  simp [penalty]

theorem Wired.perm {t : Tableau Rat} (h : Wired t l) (hp : l.Perm l') : Wired t l' where
  fits := fun e he => h.fits e (hp.mem_iff.mpr he)
  knows := fun e he => h.knows e (hp.mem_iff.mpr he)
  disjoint := (hp.flatMap_right _).nodup_iff.mp h.disjoint

theorem Wired.tail {t : Tableau Rat} {e : Constraint Rat × Tag} (h : Wired t (e :: l)) :
    Wired t l where
  fits := fun d hd => h.fits d (List.mem_cons_of_mem e hd)
  knows := fun d hd => h.knows d (List.mem_cons_of_mem e hd)
  disjoint := (List.nodup_append'.mp (List.flatMap_cons ▸ h.disjoint)).2.1

/-- The symbols of one constraint are not those of another. -/
theorem Wired.notMem_of_head {t : Tableau Rat} {e : Constraint Rat × Tag}
    (h : Wired t (e :: l)) (hx : x ∈ e.2.symbols) : ∀ d ∈ l, x ∉ d.2.symbols := by
  intro d hd hxd
  have hdisj := (List.nodup_append'.mp (List.flatMap_cons ▸ h.disjoint)).2.2
  exact hdisj hx (List.mem_flatMap.mpr ⟨d, hd, hxd⟩)

end Independence

namespace Solver

variable {s u : Solver Rat} {σ : Symbol → Rat} {x : Symbol} {c d : Constraint Rat} {tag : Tag}
  {l l' : List (Constraint Rat × Tag)}

theorem Models.perm (h : s.Models l) (hp : l.Perm l') : s.Models l' := by
  obtain ⟨k, hk⟩ := h.objective
  refine ⟨fun σ => ?_, k, fun σ hσ => ?_⟩
  · rw [h.solves]
    exact ⟨fun hb e he => hb e (hp.mem_iff.mpr he), fun hb e he => hb e (hp.mem_iff.mp he)⟩
  · rw [hk σ hσ]
    exact congrArg (k + ·) (hp.map _).sum_eq

/-- Only external symbols are read. -/
theorem read_update {t : Tableau Rat} {demand : Variable → Nat}
    (hc : Counted t s.unknowns demand) (hx : x.tier ≤ 1) (v : Rat) :
    s.read (Function.update σ x v) = s.read σ := by
  funext w
  unfold read
  cases hg : s.unknowns.get? w with
  | none => rfl
  | some entry =>
      have hm := (OrderedMap.get?_eq_some_iff hc.keys).mp hg
      have ht : entry.symbol.tier = 2 := congrArg SymbolKind.tier (hc.symbols _ hm).2
      refine Function.update_of_ne ?_ v σ
      rintro rfl
      omega

section Weights

/-- The weight of an error leaves the objective, and nothing else changes. -/
structure Lightened (s u : Solver Rat) (loss : (Symbol → Rat) → Rat) : Prop where
  layered : u.Layered
  tableau : u.tableau = s.tableau
  artificial : u.artificial = s.artificial
  books : u.books = s.books
  objective : ∀ σ, s.tableau.Solves σ → u.objective.eval σ = s.objective.eval σ - loss σ

theorem Layered.removeWeight (h : s.Layered) (hx : s.tableau.Knows x) (a : Rat) :
    Lightened s (removeWeight a s x) (fun σ => a * x.missed σ) := by
  unfold Solver.removeWeight
  split
  · rename_i herr
    refine ⟨h, rfl, rfl, rfl, fun σ _ => ?_⟩
    have hm : x.missed σ = 0 := if_neg (by simpa using herr)
    rw [hm, mul_zero, sub_zero]
  · rename_i herr
    have herr : x.isError = true := by simpa using herr
    have ht : x.tier = 1 := Symbol.tier_of_error (beq_iff_eq.mp herr)
    have hm : ∀ σ, x.missed σ = σ x := fun σ => if_pos herr
    split
    · rename_i r hr
      have hb := Tableau.mem_basics_iff.mpr ⟨hx, hr⟩
      have hr₁ : r.Within 1 := ht ▸ h.rows _ hb
      refine ⟨⟨⟨h.proper.rows, h.proper.objective.addRow (h.proper.rows.admits hb) _,
        h.proper.artificial, h.proper.infeasible⟩, h.rows, h.objective.addRow hr₁ _,
        h.artificial⟩, rfl, rfl, rfl, fun σ hσ => ?_⟩
      have heq : σ x = r.eval σ := hσ _ hb
      rw [hm, heq]
      exact (Row.eval_addRow s.objective r (-a)).trans (by ring)
    · rename_i hr
      refine ⟨⟨h.proper.addObjective ⟨hx, hr⟩ _, h.rows,
        h.objective.insert (Nat.le_of_eq ht) _, h.artificial⟩, rfl, rfl, rfl, fun σ _ => ?_⟩
      rw [hm]
      exact (Row.eval_insert s.objective x (-a)).trans (by ring)

/-- The weights of a constraint leave the objective. -/
theorem Layered.removeWeights (h : s.Layered) (hk : ∀ x ∈ tag.symbols, s.tableau.Knows x)
    (c : Constraint Rat) :
    Lightened s (s.removeWeights c tag) (fun σ => c.strength.value * tag.missed σ) := by
  have hm := h.removeWeight (hk tag.marker (by simp [Tag.symbols])) c.strength.value
  unfold Solver.removeWeights Tag.symbols
  cases ho : tag.other with
  | none =>
      refine ⟨hm.layered, hm.tableau, hm.artificial, hm.books, fun σ hσ => ?_⟩
      refine (hm.objective σ hσ).trans ?_
      simp only [Tag.missed, ho, Option.elim_none]
      ring
  | some o =>
      have hko : s.tableau.Knows o := hk o (by simp [Tag.symbols, ho])
      have hm' := hm.layered.removeWeight (x := o) (by rw [hm.tableau]; exact hko)
        c.strength.value
      refine ⟨hm'.layered, hm'.tableau.trans hm.tableau, hm'.artificial.trans hm.artificial,
        hm'.books.trans hm.books, fun σ hσ => ?_⟩
      refine (hm'.objective σ (by rw [hm.tableau]; exact hσ)).trans ?_
      rw [hm.objective σ hσ]
      simp only [Tag.missed, ho, Option.elim_some]
      ring

end Weights

section Rows

/-- A symbol that plays no part in the constraints may lose its row. -/
theorem Standing.of_dropRow (h : s.Standing l) (hk : s.tableau.Knows x) (hl : u.Layered)
    (ht : u.tableau = (s.dropRow x).tableau) (ho : u.objective = s.objective)
    (hb : ∀ σ v, ∀ e ∈ l, e.2.Balances e.1 (u.read σ) σ ↔
      e.2.Balances e.1 (s.read (Function.update σ x v)) (Function.update σ x v))
    (hx : ∀ e ∈ l, x ∉ e.2.symbols) : u.Standing l := by
  obtain ⟨k, hk'⟩ := h.models.objective
  refine ⟨hl, ?_, fun σ => ⟨fun hσ e he => ?_, fun hσ => ?_⟩, k, fun σ hσ => ?_⟩
  · intro b hm
    rw [ht] at hm
    exact h.feasible b (mem_of_mem_basics_dropRow hm)
  · rw [ht] at hσ
    obtain ⟨v, hv, -⟩ := h.layered.proper.exists_of_dropRow hk hσ
    exact (hb σ v e he).mpr ((h.models.solves _).mp hv e he)
  · rw [ht]
    refine solves_of_dropRow ((h.models.solves σ).mpr (fun e he => ?_))
    have := (hb σ (σ x) e he).mp (hσ e he)
    rwa [Function.update_eq_self] at this
  · rw [ht] at hσ
    obtain ⟨v, hv, heval⟩ := h.layered.proper.exists_of_dropRow hk hσ
    rw [ho, ← heval, hk' _ hv, penalty_update hx]

theorem Standing.dropRow (h : s.Standing l) (hk : s.tableau.Knows x) {demand : Variable → Nat}
    (hc : Counted s.tableau s.unknowns demand) (ht : x.tier ≤ 1)
    (hx : ∀ e ∈ l, x ∉ e.2.symbols) : (s.dropRow x).Standing l := by
  refine h.of_dropRow hk (h.layered.dropRow x) rfl rfl (fun σ v e he => ?_) hx
  rw [read_update hc ht, Tag.balances_update (hx e he)]
  exact Iff.rfl

variable {demand : Variable → Nat}

/-- An objective that is what the other constraints miss disregards the marker. -/
theorem disregards_of_penalty (hw : Wired s.tableau ((c, tag) :: l))
    (ho : ∃ k, ∀ σ, s.tableau.Solves σ → s.objective.eval σ = k + penalty σ l) :
    s.Disregards tag.marker := by
  obtain ⟨k, hk⟩ := ho
  intro σ τ hσ hτ hagree
  rw [hk σ hσ, hk τ hτ, penalty_congr (fun e he y hy herr => hagree y ?_ ?_ ?_)]
  · exact hw.tail.knows e he y hy
  · rintro rfl
    exact hw.notMem_of_head (by simp [Tag.symbols]) e he hy
  · exact Symbol.tier_of_error (beq_iff_eq.mp herr)

/-- Without the weights of a constraint the objective is what the others miss. -/
theorem Standing.penalty_removeWeights (h : s.Standing ((c, tag) :: l))
    (hw : Wired s.tableau ((c, tag) :: l)) (hd : d.strength = c.strength) :
    ∃ k, ∀ σ, (s.removeWeights d tag).tableau.Solves σ →
      (s.removeWeights d tag).objective.eval σ = k + penalty σ l := by
  obtain ⟨k, hk⟩ := h.models.objective
  have hlight := h.layered.removeWeights (hw.knows (c, tag) (by simp)) d
  refine ⟨k, fun σ hσ => ?_⟩
  rw [hlight.tableau] at hσ
  rw [hlight.objective σ hσ, hk σ hσ, penalty_cons, hd]
  ring

/-- Freeing the marker of a constraint leaves the equations of the others. -/
theorem Standing.removeMarker (h : s.Layered) (hf : s.Feasible)
    (hc : Counted s.tableau s.unknowns demand) (ha : s.artificial = none)
    (hw : Wired s.tableau ((c, tag) :: l))
    (hs : ∀ σ, s.tableau.Solves σ ↔ ∀ e ∈ (c, tag) :: l, e.2.Balances e.1 (s.read σ) σ)
    (ho : ∃ k, ∀ σ, s.tableau.Solves σ → s.objective.eval σ = k + penalty σ l) :
    (s.removeMarker tag.marker).Standing l := by
  have hm : tag.marker ∈ (c, tag).2.symbols := by simp [Tag.symbols]
  have hx := hw.notMem_of_head hm
  have ht : tag.marker.tier ≤ 1 := (hw.fits _ (by simp)).tier_le hm
  have hk := hw.knows _ (by simp) _ hm
  have hd : s.Disregards tag.marker := disregards_of_penalty hw ho
  obtain ⟨k, hk'⟩ := ho
  have hfree := h.removeMarker hf hk ha hd
  have hread : (s.removeMarker tag.marker).read = s.read := by
    have hbooks := (h.proper.reworked_removeMarker tag.marker).books
    exact read_congr (congrArg (fun b => b.2.2.1) hbooks)
  have hnodup : tag.symbols.Nodup :=
    (List.nodup_append'.mp (List.flatMap_cons ▸ hw.disjoint)).1
  refine ⟨hfree.layered, hfree.feasible, fun σ => ⟨fun hσ e he => ?_, fun hσ => ?_⟩, k,
    fun σ hσ => ?_⟩
  · obtain ⟨v, hv, -⟩ := hfree.completes σ hσ
    have hb := (hs _).mp hv e (List.mem_cons_of_mem _ he)
    rwa [read_update hc ht, Tag.balances_update (hx e he), ← hread] at hb
  · obtain ⟨v, hv⟩ := Tag.exists_balances (c := c) (ν := s.read σ) hnodup σ
    refine hfree.solves σ v ((hs _).mpr (List.forall_mem_cons.mpr ⟨?_, fun e he => ?_⟩))
    · rw [read_update hc ht]
      exact hv
    · rw [read_update hc ht, Tag.balances_update (hx e he), ← hread]
      exact hσ e he
  · obtain ⟨v, hv, heval⟩ := hfree.completes σ hσ
    rw [heval, hk' _ hv, penalty_update hx]

/-- Taking a constraint out leaves a solver that models the others. -/
theorem Standing.takeOut (h : s.Standing ((c, tag) :: l))
    (hc : Counted s.tableau s.unknowns demand) (ha : s.artificial = none)
    (hw : Wired s.tableau ((c, tag) :: l)) (hd : d.strength = c.strength) :
    (s.takeOut d tag).Standing l := by
  have hlight := h.layered.removeWeights (hw.knows (c, tag) (by simp)) d
  have hunknowns : (s.removeWeights d tag).unknowns = s.unknowns :=
    congrArg (fun b => b.2.2.1) hlight.books
  have hc' : Counted (s.removeWeights d tag).tableau (s.removeWeights d tag).unknowns demand := by
    rw [hlight.tableau, hunknowns]
    exact hc
  have hmark : ((s.removeWeights d tag).removeMarker tag.marker).Standing l := by
    refine Standing.removeMarker (c := c) hlight.layered ?_ hc'
      (hlight.artificial.trans ha) (by rw [hlight.tableau]; exact hw) (fun σ => ?_)
      (h.penalty_removeWeights hw hd)
    · intro b hb
      rw [hlight.tableau] at hb
      exact h.feasible b hb
    · rw [hlight.tableau, read_congr hunknowns]
      exact h.models.solves σ
  unfold Solver.takeOut
  cases ho : tag.other with
  | none => exact hmark
  | some o =>
      have hom : o ∈ (c, tag).2.symbols := by simp [Tag.symbols, ho]
      have hrework := hlight.layered.proper.reworked_removeMarker tag.marker
      have hbooks : ((s.removeWeights d tag).removeMarker tag.marker).unknowns =
          (s.removeWeights d tag).unknowns := congrArg (fun b => b.2.2.1) hrework.books
      have hknows := hc'.mono hrework.knows
      rw [← hbooks] at hknows
      refine hmark.dropRow (x := o) (hrework.knows o ?_) hknows
        ((hw.fits _ (by simp)).tier_le hom) (hw.notMem_of_head hom)
      rw [hlight.tableau]
      exact hw.knows _ (by simp) o hom

end Rows

end Solver
end Tether
