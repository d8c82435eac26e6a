import Tether.Proofs.Exact.Rows
import Tether.Proofs.Solver.LedgerInsertion

/-!
# Solutions of a tableau

An assignment solves a tableau if it gives every basic symbol the value of its
row.  The parametric symbols may have any values, and they determine those of
the basic ones.

Every operation on the tableau is described by what it does to the set of
solutions: entering adds an equation, dropping a row forgets a value, and a
pivot changes nothing.
-/

namespace Tether

open Simplex

section Basics

variable {α : Type}

theorem Simplex.Tableau.ne_of_mem_basics {t : Tableau α} {x : Symbol} {b : Symbol × Row α}
    (h : t.row? x = none) (hb : b ∈ t.basics) : b.1 ≠ x := by
  rintro rfl
  rw [(Tableau.mem_basics_iff.mp hb).2] at h
  cases h

theorem Solver.mem_basics_dropRow {s : Solver α} {x : Symbol} (hx : s.tableau.Knows x)
    {b : Symbol × Row α} :
    b ∈ (s.dropRow x).tableau.basics ↔ b ∈ s.tableau.basics ∧ b.1 ≠ x := by
  rw [Tableau.mem_basics_iff, Tableau.mem_basics_iff, knows_dropRow, Tableau.row?,
    rowAt?_dropRow]
  constructor
  · rintro ⟨hk, hr⟩
    split at hr
    · cases hr
    · rename_i hid
      exact ⟨⟨hk, hr⟩, fun he => hid (congrArg Symbol.id he.symm)⟩
  · rintro ⟨⟨hk, hr⟩, hne⟩
    rw [if_neg (fun hid => hne (hk.eq_of_id_eq hx hid.symm))]
    exact ⟨hk, hr⟩

theorem Solver.mem_basics_dropArtificial {s : Solver α} {x : Symbol} {b : Symbol × Row α} :
    b ∈ (s.dropArtificial x).tableau.basics ↔
      ∃ r, (b.1, r) ∈ s.tableau.basics ∧ b.2 = r.erase x :=
  Tableau.mem_basics_of_rows (fun id => Tableau.kindAt?_modifyMentioning s.tableau x _ id)
    (rowAt?_dropArtificial s x)

variable [Scalar α]

theorem Solver.mem_basics_substitute {s : Solver α} {x : Symbol} {q : Row α}
    {b : Symbol × Row α} :
    b ∈ (s.substitute x q).tableau.basics ↔
      ∃ r, (b.1, r) ∈ s.tableau.basics ∧ b.2 = r.substitute x q :=
  Tableau.mem_basics_of_rows (fun id => kindAt?_substitute s x q id) (rowAt?_substitute s x q)

theorem Solver.mem_basics_enter {s : Solver α} {x : Symbol} {q : Row α}
    (hx : s.tableau.Knows x) {b : Symbol × Row α} :
    b ∈ (s.enter x q).tableau.basics ↔
      b = (x, q) ∨ b.1 ≠ x ∧ ∃ r, (b.1, r) ∈ s.tableau.basics ∧ b.2 = r.substitute x q := by
  obtain ⟨y, p⟩ := b
  simp only [Tableau.mem_basics_iff, knows_enter, Tableau.row?, rowAt?_enter hx]
  constructor
  · rintro ⟨hk, hr⟩
    by_cases hid : x.id = y.id
    · rw [if_pos hid] at hr
      cases hr
      rw [hk.eq_of_id_eq hx hid.symm]
      exact Or.inl rfl
    · rw [if_neg hid] at hr
      obtain ⟨r, hr, he⟩ := Option.map_eq_some_iff.mp hr
      exact Or.inr ⟨fun he => hid (congrArg Symbol.id he.symm), r, ⟨hk, hr⟩, he.symm⟩
  · rintro (he | ⟨hne, r, ⟨hk, hr⟩, rfl⟩)
    · cases he
      exact ⟨hx, if_pos rfl⟩
    · rw [if_neg (fun hid => hne (hk.eq_of_id_eq hx hid.symm)), hr]
      exact ⟨hk, rfl⟩

end Basics

namespace Simplex
namespace Tableau

variable {t t' : Tableau Rat} {σ τ : Symbol → Rat} {r : Row Rat} {x : Symbol}

/-- The assignment gives every basic symbol the value of its row. -/
def Solves (t : Tableau Rat) (σ : Symbol → Rat) : Prop :=
  ∀ b ∈ t.basics, σ b.1 = b.2.eval σ

/-- The solution with the given values of the parametric symbols. -/
def fill (t : Tableau Rat) (τ : Symbol → Rat) (x : Symbol) : Rat :=
  (t.row? x).elim (τ x) (fun r => r.eval τ)

theorem fill_of_basic (h : t.row? x = some r) (τ : Symbol → Rat) : t.fill τ x = r.eval τ := by
  rw [fill, h]
  rfl

theorem fill_of_parametric (h : t.row? x = none) (τ : Symbol → Rat) : t.fill τ x = τ x := by
  rw [fill, h]
  rfl

theorem Admits.eval_fill (h : t.Admits r) (τ : Symbol → Rat) :
    r.eval (t.fill τ) = r.eval τ :=
  Row.eval_congr (fun y hy => fill_of_parametric (h.parametric y hy).2 τ)

/-- An admitted row does not depend on a basic symbol. -/
theorem Admits.eval_update (h : t.Admits r) (hx : t.row? x ≠ none) (σ : Symbol → Rat)
    (v : Rat) : r.eval (Function.update σ x v) = r.eval σ :=
  Row.eval_update_of_notMem (fun hm => hx (h.parametric x hm).2) σ v

theorem Solved.admits (h : t.Solved) {b : Symbol × Row Rat} (hb : b ∈ t.basics) :
    t.Admits b.2 :=
  h b.1.id b.2 (mem_basics_iff.mp hb).2

/-- The parametric symbols may have any values. -/
theorem Solved.solves_fill (h : t.Solved) (τ : Symbol → Rat) : t.Solves (t.fill τ) := by
  intro b hb
  rw [fill_of_basic (mem_basics_iff.mp hb).2, (h.admits hb).eval_fill]

/-- If every row is changed as an assignment is, then the one assignment solves
the one tableau when the other solves the other. -/
theorem solves_iff_of_rows {f : Row Rat → Row Rat}
    (hb : ∀ b, b ∈ t'.basics ↔ ∃ r, (b.1, r) ∈ t.basics ∧ b.2 = f r)
    (hf : ∀ b ∈ t.basics, (f b.2).eval σ = b.2.eval τ)
    (hσ : ∀ b ∈ t.basics, σ b.1 = τ b.1) : t'.Solves σ ↔ t.Solves τ := by
  constructor
  · intro h b hm
    rw [← hσ b hm, ← hf b hm]
    exact h (b.1, f b.2) ((hb _).mpr ⟨b.2, hm, rfl⟩)
  · intro h b hm
    obtain ⟨r, hr, he⟩ := (hb b).mp hm
    rw [he, hf _ hr, hσ _ hr]
    exact h _ hr

end Tableau
end Simplex

namespace Solver

variable {s : Solver Rat} {σ : Symbol → Rat} {x : Symbol} {q r : Row Rat}

section Operations

theorem solves_substitute (h : s.Proper) (hx : s.tableau.row? x = none) :
    (s.substitute x q).tableau.Solves σ ↔
      s.tableau.Solves (Function.update σ x (q.eval σ)) :=
  Tableau.solves_iff_of_rows (fun _ => mem_basics_substitute)
    (fun _ hb => (h.rows.admits hb).ordered.eval_substitute x q)
    (fun _ hb => (Function.update_of_ne (Tableau.ne_of_mem_basics hx hb) _ σ).symm)

/-- A symbol that enters adds its row to the equations. -/
theorem solves_enter (h : s.Proper) (hx : s.tableau.Parametric x) :
    (s.enter x q).tableau.Solves σ ↔ σ x = q.eval σ ∧ s.tableau.Solves σ := by
  have heval : σ x = q.eval σ → ∀ b ∈ s.tableau.basics,
      (b.2.substitute x q).eval σ = b.2.eval σ := by
    intro he b hb
    rw [(h.rows.admits hb).ordered.eval_substitute, ← he, Function.update_eq_self]
  constructor
  · intro hs
    have he : σ x = q.eval σ := hs (x, q) ((mem_basics_enter hx.1).mpr (Or.inl rfl))
    refine ⟨he, fun b hb => ?_⟩
    rw [← heval he b hb]
    refine hs (b.1, b.2.substitute x q) ((mem_basics_enter hx.1).mpr (Or.inr ⟨?_, b.2, hb, rfl⟩))
    exact Tableau.ne_of_mem_basics (b := b) hx.2 hb
  · rintro ⟨he, hs⟩ b hb
    rcases (mem_basics_enter hx.1).mp hb with rfl | ⟨-, r, hr, hq⟩
    · exact he
    · rw [hq, heval he _ hr]
      exact hs _ hr

/-- A symbol whose row is dropped may have any value. -/
theorem solves_dropRow (h : s.Proper) (hx : (x, r) ∈ s.tableau.basics) :
    (s.dropRow x).tableau.Solves σ ↔
      s.tableau.Solves (Function.update σ x (r.eval σ)) := by
  obtain ⟨hk, hrow⟩ := Tableau.mem_basics_iff.mp hx
  have heval : ∀ b ∈ s.tableau.basics,
      b.2.eval (Function.update σ x (r.eval σ)) = b.2.eval σ :=
    fun b hb => (h.rows.admits hb).eval_update (by rw [hrow]; simp) σ _
  constructor
  · intro hs b hb
    rw [heval b hb]
    by_cases hbx : b.1 = x
    · have hr := (Tableau.mem_basics_iff.mp hb).2
      rw [hbx, hrow] at hr
      rw [hbx, Function.update_self, Option.some.inj hr]
    · rw [Function.update_of_ne hbx]
      exact hs b ((mem_basics_dropRow hk).mpr ⟨hb, hbx⟩)
  · intro hs b hb
    obtain ⟨hb, hbx⟩ := (mem_basics_dropRow hk).mp hb
    have := hs b hb
    rwa [heval b hb, Function.update_of_ne hbx] at this

theorem solves_dropArtificial (h : s.Proper) (hx : s.tableau.row? x = none) :
    (s.dropArtificial x).tableau.Solves σ ↔ s.tableau.Solves (Function.update σ x 0) := by
  refine Tableau.solves_iff_of_rows (fun _ => mem_basics_dropArtificial) ?_
    (fun b hb => (Function.update_of_ne (Tableau.ne_of_mem_basics hx hb) _ σ).symm)
  intro b hb
  rw [Row.eval_erase, (h.rows.admits hb).ordered.eval_update]
  ring

/-- The equation of a symbol that left is that of the one that entered. -/
theorem eval_exchange_eq_iff (hr : r.Ordered) {leaving entering : Symbol}
    (hne : leaving ≠ entering) (ha : r.coefficient entering ≠ 0) :
    σ entering = (r.exchange leaving entering).eval σ ↔ σ leaving = r.eval σ := by
  rw [Row.eval_exchange hr hne ha]
  constructor
  · intro h
    have hzero : (r.eval σ - σ leaving) / r.coefficient entering = 0 := by linarith
    rcases div_eq_zero_iff.mp hzero with h | h
    · linarith
    · exact absurd h ha
  · intro h
    rw [h]
    ring

end Operations

section Pivots

variable {leaving entering : Symbol}

/-- A basic symbol is not in a row. -/
theorem Proper.ne_of_basic (h : s.Proper) (hl : (leaving, r) ∈ s.tableau.basics)
    (he : entering ∈ r.symbols) : leaving ≠ entering := by
  rintro rfl
  have hn := ((h.rows.admits hl).parametric leaving he).2
  rw [(Tableau.mem_basics_iff.mp hl).2] at hn
  cases hn

/-- A pivot does not change the solutions. -/
theorem solves_pivot (h : s.Proper) (hl : (leaving, r) ∈ s.tableau.basics)
    (ha : r.coefficient entering ≠ 0) :
    ((s.dropRow leaving).pivot leaving entering r).tableau.Solves σ ↔ s.tableau.Solves σ := by
  have he := Row.mem_symbols_of_coefficient ha
  have hne := h.ne_of_basic hl he
  have hr := h.rows.admits hl
  have hp : (s.dropRow leaving).tableau.Parametric entering :=
    (hr.parametric entering he).erase leaving
  unfold pivot
  rw [solves_enter (h.dropRow leaving) hp, eval_exchange_eq_iff hr.ordered hne ha,
    solves_dropRow h hl]
  constructor
  · rintro ⟨he, hs⟩
    rwa [← he, Function.update_eq_self] at hs
  · intro hs
    have he : σ leaving = r.eval σ := hs _ hl
    exact ⟨he, by rwa [← he, Function.update_eq_self]⟩

/-- Two solvers with the same symbols and solutions, and with objectives that
agree on them. -/
structure Equivalent (s u : Solver Rat) : Prop where
  knows : ∀ x, u.tableau.Knows x ↔ s.tableau.Knows x
  solves : ∀ σ, u.tableau.Solves σ ↔ s.tableau.Solves σ
  objective : ∀ σ, s.tableau.Solves σ → u.objective.eval σ = s.objective.eval σ
  artificial : ∀ σ, s.tableau.Solves σ →
    u.artificial.map (fun r => r.eval σ) = s.artificial.map (fun r => r.eval σ)

theorem Equivalent.refl (s : Solver Rat) : s.Equivalent s :=
  ⟨fun _ => Iff.rfl, fun _ => Iff.rfl, fun _ _ => rfl, fun _ _ => rfl⟩

theorem Equivalent.trans {u w : Solver Rat} (h : s.Equivalent u) (h' : u.Equivalent w) :
    s.Equivalent w where
  knows := fun x => (h'.knows x).trans (h.knows x)
  solves := fun σ => (h'.solves σ).trans (h.solves σ)
  objective := fun σ hs =>
    (h'.objective σ ((h.solves σ).mpr hs)).trans (h.objective σ hs)
  artificial := fun σ hs =>
    (h'.artificial σ ((h.solves σ).mpr hs)).trans (h.artificial σ hs)

theorem equivalent_pivot (h : s.Proper) (hl : (leaving, r) ∈ s.tableau.basics)
    (ha : r.coefficient entering ≠ 0) :
    s.Equivalent ((s.dropRow leaving).pivot leaving entering r) := by
  have hne := h.ne_of_basic hl (Row.mem_symbols_of_coefficient ha)
  have heval : ∀ σ, s.tableau.Solves σ → ∀ p : Row Rat, p.Ordered →
      (p.substitute entering (r.exchange leaving entering)).eval σ = p.eval σ := by
    intro σ hs p hp
    have he := (eval_exchange_eq_iff (h.rows.admits hl).ordered hne ha).mpr (hs _ hl)
    rw [hp.eval_substitute, ← he, Function.update_eq_self]
  refine ⟨fun _ => knows_enter.trans knows_dropRow, fun σ => solves_pivot h hl ha, ?_, ?_⟩
  · exact fun σ hs => heval σ hs s.objective h.objective.ordered
  · intro σ hs
    have hart : ((s.dropRow leaving).pivot leaving entering r).artificial =
        s.artificial.map (fun p => p.substitute entering (r.exchange leaving entering)) := rfl
    rw [hart, Option.map_map]
    refine Option.map_congr (fun p hp => ?_)
    exact heval σ hs p (h.artificial p hp).ordered

end Pivots

end Solver
end Tether
