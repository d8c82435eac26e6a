import Tether.Proofs.Exact.Absence
import Tether.Proofs.Exact.Equations
import Tether.Proofs.Exact.Representing

/-!
# Pairs of symbols

A constraint that is not required has two symbols, and its equation speaks of their
difference alone.  So a solution stays one when both grow by the same amount, and the rows
cannot tell: the coefficients of the two cancel in the row of any other symbol, and they
add up to one in the row of one of the two.

As rows mention parametric symbols only, at most one of the two is basic, and then the
other stands in its row with coefficient one and in no other row.  This is why it is enough
for a suggestion to shift the one row, and why a removal that drops the rows of the two
leaves nothing of either.
-/

namespace Tether

open Simplex

section Paired

/-- If the first symbol is basic, then the second has coefficient one in its row and is in
no other row. -/
def Simplex.Tableau.Absorbs (t : Tableau Rat) (x y : Symbol) : Prop :=
  ∀ r, t.row? x = some r →
    r.coefficient y = 1 ∧ ∀ b ∈ t.basics, b.1 ≠ x → y ∉ b.2.symbols

/-- Two symbols that move as a pair: they are never both basic, their coefficients are
opposite while neither is, and a basic one has the other in its own row alone. -/
structure Simplex.Tableau.Paired (t : Tableau Rat) (x y : Symbol) : Prop where
  apart : t.row? x = none ∨ t.row? y = none
  opposite : t.row? x = none → t.row? y = none →
    ∀ b ∈ t.basics, b.2.coefficient y = -b.2.coefficient x
  left : t.Absorbs x y
  right : t.Absorbs y x

/-- An assignment with two values raised by one. -/
def raised (σ : Symbol → Rat) (x y : Symbol) : Symbol → Rat :=
  Function.update (Function.update σ x (σ x + 1)) y (σ y + 1)

variable {σ : Symbol → Rat} {x y z : Symbol} {t : Tableau Rat} {r : Row Rat}

theorem raised_apply (hxy : x ≠ y) (z : Symbol) :
    raised σ x y z = σ z + ((if z = x then 1 else 0) + (if z = y then 1 else 0)) := by
  unfold raised
  by_cases hy : z = y
  · subst hy
    rw [Function.update_self, if_neg hxy.symm, if_pos rfl, zero_add]
  · rw [Function.update_of_ne hy, if_neg hy, add_zero]
    by_cases hx : z = x
    · subst hx
      rw [Function.update_self, if_pos rfl]
    · rw [Function.update_of_ne hx, if_neg hx, add_zero]

theorem Simplex.Row.Ordered.eval_raised (h : r.Ordered) (hxy : x ≠ y) :
    r.eval (raised σ x y) = r.eval σ + (r.coefficient x + r.coefficient y) := by
  rw [raised, h.eval_update, h.eval_update, Function.update_of_ne hxy.symm]
  ring

/-- If solutions may be raised, then two coefficients add up to what raising does to the
symbol of the row. -/
theorem Simplex.Tableau.Solved.coefficient_add (h : t.Solved) (hxy : x ≠ y)
    (hraise : ∀ σ, t.Solves σ → t.Solves (raised σ x y)) {b : Symbol × Row Rat}
    (hb : b ∈ t.basics) :
    b.2.coefficient x + b.2.coefficient y =
      (if b.1 = x then 1 else 0) + (if b.1 = y then 1 else 0) := by
  have hσ := h.solves_fill 0
  have hrow := hσ b hb
  have hraised := hraise _ hσ b hb
  rw [raised_apply hxy, (h.admits hb).ordered.eval_raised hxy, hrow] at hraised
  linarith

/-- A basic symbol has coefficient zero everywhere. -/
theorem Simplex.Tableau.Solved.coefficient_of_basic (h : t.Solved) (hx : t.row? x ≠ none)
    {b : Symbol × Row Rat} (hb : b ∈ t.basics) : b.2.coefficient x = 0 :=
  Row.coefficient_of_notMem (fun hm => hx ((h.admits hb).parametric x hm).2)

/-- A constraint with two symbols speaks of their difference. -/
theorem Tag.balances_raised {tag d : Tag} {c : Constraint Rat} {ν : Variable → Rat}
    {o : Symbol} (ho : tag.other = some o) (hn : tag.marker ≠ o)
    (hd : d = tag ∨ ∀ z ∈ tag.symbols, z ∉ d.symbols) :
    d.Balances c ν (raised σ tag.marker o) ↔ d.Balances c ν σ := by
  rcases hd with rfl | hd
  · unfold Tag.Balances
    rw [ho, Option.elim_some, Option.elim_some, raised_apply hn, raised_apply hn, if_pos rfl,
      if_neg hn, if_neg hn.symm, if_pos rfl]
    constructor
    · intro h
      linarith
    · intro h
      linarith
  · rw [raised, Tag.balances_update (hd o (by simp [Tag.symbols, ho])),
      Tag.balances_update (hd tag.marker (by simp [Tag.symbols]))]

end Paired

namespace Solver

variable {s : Solver Rat} {x y : Symbol}

section Raising

/-- Of two symbols that may be raised together only one is basic. -/
theorem Layered.apart_of_raised (h : s.Layered) (hx : s.tableau.Knows x) (hxy : x ≠ y)
    (hraise : ∀ σ, s.tableau.Solves σ → s.tableau.Solves (raised σ x y)) :
    s.tableau.row? x = none ∨ s.tableau.row? y = none := by
  by_contra hboth
  obtain ⟨hbx, hby⟩ := not_or.mp hboth
  obtain ⟨r, hr⟩ := Option.ne_none_iff_exists'.mp hbx
  have hb := Tableau.mem_basics_iff.mpr ⟨hx, hr⟩
  have hsum := h.proper.rows.coefficient_add hxy hraise hb
  rw [h.proper.rows.coefficient_of_basic hbx hb, h.proper.rows.coefficient_of_basic hby hb,
    if_pos rfl, if_neg hxy] at hsum
  norm_num at hsum

/-- A basic symbol absorbs the one that may be raised with it. -/
theorem Layered.absorbs_of_raised (h : s.Layered) (hx : s.tableau.Knows x) (hxy : x ≠ y)
    (hraise : ∀ σ, s.tableau.Solves σ → s.tableau.Solves (raised σ x y)) :
    s.tableau.Absorbs x y := by
  intro r hr
  have hbasic : s.tableau.row? x ≠ none := by simp [hr]
  have hy := (h.apart_of_raised hx hxy hraise).resolve_left hbasic
  have hsum : ∀ b ∈ s.tableau.basics, b.2.coefficient y = if b.1 = x then 1 else 0 := by
    intro b hb
    have hsum := h.proper.rows.coefficient_add hxy hraise hb
    rwa [h.proper.rows.coefficient_of_basic hbasic hb, if_neg (Tableau.ne_of_mem_basics hy hb),
      zero_add, add_zero] at hsum
  refine ⟨?_, fun b hb hne hm => ?_⟩
  · exact (hsum _ (Tableau.mem_basics_iff.mpr ⟨hx, hr⟩)).trans (if_pos rfl)
  · exact (h.rows b hb).reduced.coefficient_ne_zero hm ((hsum b hb).trans (if_neg hne))

/-- Two symbols that may be raised together are a pair. -/
theorem Layered.paired_of_raised (h : s.Layered) (hx : s.tableau.Knows x)
    (hy : s.tableau.Knows y) (hxy : x ≠ y)
    (hraise : ∀ σ, s.tableau.Solves σ → s.tableau.Solves (raised σ x y)) :
    s.tableau.Paired x y := by
  have hcomm : ∀ σ, raised σ y x = raised σ x y := by
    intro σ
    funext z
    rw [raised_apply hxy, raised_apply hxy.symm, add_comm (ite (z = y) _ _)]
  refine ⟨h.apart_of_raised hx hxy hraise, fun hx hy b hb => ?_,
    h.absorbs_of_raised hx hxy hraise, h.absorbs_of_raised hy hxy.symm (fun σ hσ => ?_)⟩
  · have hsum := h.proper.rows.coefficient_add hxy hraise hb
    rw [if_neg (Tableau.ne_of_mem_basics hx hb), if_neg (Tableau.ne_of_mem_basics hy hb)] at hsum
    linarith
  · rw [hcomm]
    exact hraise σ hσ

end Raising

section Yoked

variable {t u start w : Solver Rat} {e : Constraint Rat × Tag} {c : Constraint Rat} {tag : Tag}
  {r : Row Rat} {o : Symbol} {σ : Symbol → Rat} {loop : Loop} {call : SolverCall Rat}

/-- The symbols of every constraint on the list that is not required may be raised
together. -/
def Yoked (s : Solver Rat) : Prop :=
  ∀ e ∈ s.constraints.entries, e.1.strength.isRequired = false →
    ∃ o, e.2.other = some o ∧ e.2.marker ≠ o ∧ (∀ x ∈ e.2.symbols, s.tableau.Knows x) ∧
      ∀ σ, s.tableau.Solves σ → s.tableau.Solves (raised σ e.2.marker o)

theorem Yoked.of_equivalent (h : start.Yoked) (he : start.Equivalent t)
    (hc : t.constraints = start.constraints) : t.Yoked := by
  intro e hm hr
  rw [hc] at hm
  obtain ⟨o, ho, hne, hk, hraise⟩ := h e hm hr
  exact ⟨o, ho, hne, fun x hx => (he.knows x).mpr (hk x hx),
    fun σ hσ => (he.solves _).mpr (hraise σ ((he.solves σ).mp hσ))⟩

/-- The symbols of every constraint on the list that is not required are a pair. -/
def MovesPairs (s : Solver Rat) : Prop :=
  ∀ e ∈ s.constraints.entries, e.1.strength.isRequired = false →
    ∃ o, e.2.other = some o ∧ s.tableau.Paired e.2.marker o

theorem Yoked.movesPairs (h : s.Yoked) (hl : s.Layered) : s.MovesPairs := by
  intro e he hr
  obtain ⟨o, ho, hne, hk, hraise⟩ := h e he hr
  exact ⟨o, ho, hl.paired_of_raised (hk _ (by simp [Tag.symbols]))
    (hk o (by simp [Tag.symbols, ho])) hne hraise⟩

/-- The variables do not move with the symbols of a constraint. -/
theorem read_raised {demand : Variable → Nat} {l : List (Constraint Rat × Tag)}
    {p q : Tableau Rat} (hc : Counted q s.unknowns demand) (ht : Tagged p l) (he : e ∈ l)
    (ho : e.2.other = some o) : s.read (raised σ e.2.marker o) = s.read σ := by
  have hf := ht.fits e he
  rw [raised, read_update hc (hf.tier_le (by simp [Tag.symbols, ho])),
    read_update hc (hf.tier_le (by simp [Tag.symbols]))]

theorem marker_ne_other {l : List (Constraint Rat × Tag)} {p : Tableau Rat} (ht : Tagged p l)
    (he : e ∈ l) (ho : e.2.other = some o) : e.2.marker ≠ o := by
  have hn := (List.nodup_flatMap.mp ht.disjoint).1 e he
  simpa [Tag.symbols, ho] using hn

/-- What stands for its constraints does not notice when both symbols of one are raised. -/
theorem Represents.yoked (h : s.Represents) : s.Yoked := by
  intro e he hr
  obtain ⟨o, ho, -⟩ := (h.ledger.tagged.fits e he).exists_other hr
  have hne := marker_ne_other h.ledger.tagged he ho
  refine ⟨o, ho, hne, h.ledger.tagged.knows e he, fun σ hσ => ?_⟩
  refine (h.models.solves _).mpr (fun d hd => ?_)
  have hbalances := (h.models.solves σ).mp hσ d hd
  obtain ⟨d, hdm, rfl⟩ := List.mem_map.mp hd
  rw [read_raised h.ledger.counted h.ledger.tagged he ho, Tag.balances_raised ho hne]
  · exact hbalances
  · by_cases hed : e = d
    · exact Or.inl (by rw [hed])
    · exact Or.inr (fun z hz => h.ledger.tagged.notMem_symbols (b := d) he hdm hed hz)

/-- A new row does not notice either: where it is zero it stays zero, and its value there
grows by the sum of the two coefficients. -/
theorem Drafted.eval_raised (hs : s.Sound) (hd : Drafted s c r tag u)
    (he : e ∈ s.constraints.entries) (hr : e.1.strength.isRequired = false)
    (ho : e.2.other = some o) (σ : Symbol → Rat) : r.eval (raised σ e.2.marker o) = r.eval σ := by
  have hne := marker_ne_other hs.ledger.tagged he ho
  obtain ⟨o', ho', -, -, hraise⟩ := hs.represents.yoked e he hr
  obtain rfl := Option.some.inj (ho.symm.trans ho')
  have hnew : ∀ x ∈ tag.symbols, ¬ s.tableau.Knows x :=
    fun x hx hk => Nat.not_le_of_lt hk.id_lt (hd.fresh x hx)
  have hmarker := hnew tag.marker (by simp [Tag.symbols])
  have hordered := hd.admits.ordered
  -- a solution at which the row is zero, by the choice of the new marker
  have hzero : ∃ ρ, s.tableau.Solves ρ ∧ r.eval ρ = 0 := by
    refine ⟨Function.update (s.tableau.fill 0) tag.marker (s.tableau.fill 0 tag.marker -
      r.eval (s.tableau.fill 0) / r.coefficient tag.marker), ?_, ?_⟩
    · rw [solves_update_of_not_knows hs.optimal.layered.proper hmarker]
      exact hs.optimal.layered.proper.rows.solves_fill 0
    · rw [hordered.eval_update, sub_sub_cancel_left, mul_neg, mul_div_cancel₀ _ hd.marker,
        add_neg_cancel]
  obtain ⟨ρ, hρ, hrow⟩ := hzero
  have hstays : r.eval (raised ρ e.2.marker o) = 0 := by
    have hbalances := (hd.row ρ hρ).mp hrow
    refine (hd.row _ (hraise ρ hρ)).mpr ?_
    rw [read_raised hd.ledger.counted hs.ledger.tagged he ho, Tag.balances_raised ho hne]
    · exact hbalances
    · exact Or.inr (fun z hz hzt => hnew z hzt (hs.ledger.tagged.knows e he z hz))
  rw [hordered.eval_raised hne, hrow, zero_add] at hstays
  rw [hordered.eval_raised hne, hstays, add_zero]

/-- The row that is probed does not notice either. -/
theorem Sound.yoked_probing (hs : s.Sound)
    (hx : subject? (s.createRow c).1 (s.createRow c).2.1 = none) :
    (host { (s.createRow c).2.2 with tableau := (s.createRow c).2.2.tableau.openJournal }
      (s.createRow c).1).Yoked := by
  have hd := drafted_createRow hs.ledger hs.optimal.layered c
  have hhost := Drafted.probed_host hd hx hs
  intro e he hr
  have he : e ∈ s.constraints.entries := hd.drafts.constraints ▸ he
  obtain ⟨o, ho, hne, hk, hraise⟩ := hs.represents.yoked e he hr
  have hknows : ∀ z ∈ e.2.symbols, (s.createRow c).2.2.tableau.Knows z :=
    fun z hz => hd.drafts.tableau.knows (hk z hz)
  refine ⟨o, ho, hne, fun z hz => (hhost.knows z).mpr (Or.inl (hknows z hz)), fun σ hσ => ?_⟩
  obtain ⟨hart, hsolves⟩ := (hhost.solves σ).mp hσ
  refine (hhost.solves _).mpr ⟨?_, ?_⟩
  · rw [Drafted.eval_raised hs hd he hr ho, ← hart, raised_apply hne, if_neg, if_neg, add_zero,
      add_zero]
    · intro hother
      exact not_knows_newSymbol _ (hother ▸ hknows o (by simp [Tag.symbols, ho]))
    · intro hmarker
      exact not_knows_newSymbol _ (hmarker ▸ hknows e.2.marker (by simp [Tag.symbols]))
  · exact hd.drafts.solves_iff.mpr (hraise σ (hd.drafts.solves_iff.mp hsolves))

/-- Where a loop starts, the symbols of a constraint may be raised together. -/
theorem Sound.yoked_starts (hs : s.Sound) (h : Starts s call loop start) : start.Yoked := by
  by_cases hne : loop = .primal .artificial
  · subst hne
    obtain ⟨c, hx, rfl⟩ := h.exists_probing
    exact hs.yoked_probing hx
  · exact (hs.represents_starts h hne).yoked

/-- In every state of every loop the symbols of a constraint move as a pair. -/
theorem Sound.movesPairs_visited (hs : s.Sound) (hw : call.Weighted)
    (h : Undertakes s call loop start) (hv : Visits loop.step start t) : t.MovesPairs := by
  obtain ⟨u, call', hu, hstarts⟩ := hs.exists_starts hw h
  have ht := (hu.proceeds hstarts).visits hv
  refine ((hu.yoked_starts hstarts).of_equivalent ht.equivalent ?_).movesPairs ht.layered
  exact congrArg (fun b => b.2.1) (books_of_visits hv)

end Yoked

section Shifting

variable {u : Solver Rat} {v : Variable} {edit : Edit Rat} {tag : Tag} {b : Symbol × Row Rat}
  {d δ : Rat}

/-- By how much the row of a basic symbol is shifted when the constraint of a tag moves: if
one of the two symbols is basic, then its row alone, and otherwise every row by what it
depends on the marker. -/
def shiftOf (s : Solver Rat) (tag : Tag) (δ : Rat) (b : Symbol × Row Rat) : Rat :=
  if s.tableau.isBasic tag.marker then
    if b.1 = tag.marker then -δ else 0
  else if tag.other.any s.tableau.isBasic then
    if tag.other = some b.1 then δ else 0
  else δ * b.2.coefficient tag.marker

/-- Shifting the row of a known symbol shifts no other row. -/
theorem mem_basics_shiftRow_of_knows (hx : s.tableau.Knows x) (d : Rat) (b : Symbol × Row Rat) :
    b ∈ (s.shiftRow x d).tableau.basics ↔ ∃ r, (b.1, r) ∈ s.tableau.basics ∧
      b.2 = r.shift (if b.1 = x then d else 0) := by
  rw [rowsShifted_shiftRow s x d b]
  refine exists_congr (fun r => and_congr_right (fun hb => ?_))
  have hid : x.id = b.1.id ↔ b.1 = x :=
    ⟨fun h => (Tableau.mem_basics_iff.mp hb).1.eq_of_id_eq hx h.symm,
      fun h => congrArg Symbol.id h.symm⟩
  simp only [hid]

theorem mem_basics_shiftEdit (hk : ∀ x ∈ tag.symbols, s.tableau.Knows x) (δ : Rat)
    (b : Symbol × Row Rat) : b ∈ (s.shiftEdit tag δ).tableau.basics ↔
      ∃ r, (b.1, r) ∈ s.tableau.basics ∧ b.2 = r.shift (s.shiftOf tag δ (b.1, r)) := by
  unfold shiftEdit shiftOf basicOther?
  split
  · exact mem_basics_shiftRow_of_knows (hk _ (by simp [Tag.symbols])) _ b
  · cases ho : tag.other with
    | none => exact rowsShifted_modifyMentioning s tag.marker δ b
    | some o =>
        cases hbasic : s.tableau.isBasic o with
        | true =>
            simp only [Option.filter_some, Option.any_some, hbasic, if_true]
            rw [mem_basics_shiftRow_of_knows (hk o (by simp [Tag.symbols, ho])) δ b]
            simp only [Option.some.injEq, eq_comm]
        | false =>
            simp only [Option.filter_some, Option.any_some, hbasic, Bool.false_eq_true, if_false]
            exact rowsShifted_modifyMentioning s tag.marker δ b

/-- The shift of a row is what its symbol is off by at the solutions. -/
theorem Layered.eq_shift_iff (h : u.Layered) {r : Row Rat} (hb : (x, r.shift d) ∈ u.tableau.basics)
    (δ : Rat) : (∀ σ, u.tableau.Solves σ → σ x = (r.shift δ).eval σ) ↔ δ = d := by
  constructor
  · intro hall
    have hσ := h.proper.rows.solves_fill 0
    have hrow := hall _ hσ
    rw [hσ _ hb, Row.eval_shift, Row.eval_shift] at hrow
    exact (add_left_cancel hrow).symm
  · rintro rfl σ hσ
    exact hσ _ hb

end Shifting

section Dropping

variable {c installed : Constraint Rat} {tag : Tag}

/-- When the rows of the symbols of a removed constraint have been dropped, neither of them
occurs anywhere. -/
theorem Sound.absent_of_detach (h : s.Sound) (hf : s.constraints.find? c = some (installed, tag))
    (hx : x ∈ tag.symbols) : (s.releasedAfter c installed tag []).Absent x := by
  have hm := (OrderedMap.mem_of_find? hf).1
  obtain ⟨hrest, hlist, hstanding⟩ := h.optimal.toStanding.detach h.ledger h.idle.artificial hf
    (fun _ _ => rfl) rfl
  have hknows := (h.ledger.reworked_takeOut hf).knows x (h.ledger.tagged.knows _ hm x hx)
  refine hstanding.models.absent_of_notMem hstanding.layered hknows hrest.counted
    ((h.ledger.tagged.fits _ hm).tier_le hx) (fun e he => ?_)
  obtain ⟨d, hd, rfl⟩ := List.mem_map.mp he
  exact h.ledger.notMem_of_erase hf hx d (hlist ▸ hd)

end Dropping

section Runs

variable {answers : List (SolverAnswer Rat)} {calls : List (SolverCall Rat)}

/-- After every run, and in every state of every loop of a further call, the two symbols of
an installed constraint that is not required move as a pair.

Before the dual steps of a suggestion the rows are those of before, shifted: the row of a
basic error alone, or else every row by what it depends on the marker.  This gives the
tableau the equations with the new value, and no row can be shifted by anything else.

When the rows of the symbols of a removed constraint have been dropped, neither of them
occurs anywhere. -/
theorem marker_and_other_move_as_pair (settings : Settings Rat) (limit : Nat)
    (hw : ∀ call ∈ calls, call.Weighted)
    (hrun : (empty settings).run limit calls = .ok (s, answers)) :
    s.MovesPairs ∧
    (∀ call : SolverCall Rat, call.Weighted → ∀ loop start t, Undertakes s call loop start →
      Visits loop.step start t → t.MovesPairs) ∧
    (∀ v edit x, s.edits.get? v = some edit →
      ∀ u, u = (s.retarget v x).shiftEdit edit.tag (x - edit.constant) →
        (∃ o, edit.tag.other = some o ∧ s.tableau.Paired edit.tag.marker o) ∧
        (∀ b, b ∈ u.tableau.basics ↔ ∃ r, (b.1, r) ∈ s.tableau.basics ∧
          b.2 = r.shift (s.shiftOf edit.tag (x - edit.constant) (b.1, r))) ∧
        (∀ σ, u.tableau.Solves σ ↔ ∀ e ∈ s.constraints.entries,
          e.2.Equation (e.1.current (s.retarget v x).edits) (s.read σ) σ) ∧
        ∀ b ∈ s.tableau.basics, ∀ d,
          (∀ σ, (∀ e ∈ s.constraints.entries,
              e.2.Equation (e.1.current (s.retarget v x).edits) (s.read σ) σ) →
            σ b.1 = (b.2.shift d).eval σ) ↔
          d = s.shiftOf edit.tag (x - edit.constant) b) ∧
    ∀ c installed tag, s.constraints.find? c = some (installed, tag) →
      ∀ x ∈ tag.symbols, (s.releasedAfter c installed tag []).Absent x := by
  have hs : s.Sound := sound_run settings limit hw _ hrun
  have hpairs := hs.represents.yoked.movesPairs hs.optimal.layered
  refine ⟨hpairs, fun call hcall loop start t => hs.movesPairs_visited hcall,
    fun v edit x hv u hu => ?_, fun c installed tag hf x hx => ?_⟩
  · have hinstalled := hs.ledger.held.installed _
      ((OrderedMap.get?_eq_some_iff hs.ledger.held.keys).mp hv)
    have hrep : u.Represents := hu ▸ hs.represents_suggest hv x
    obtain ⟨y, d, hm, hshift⟩ := hs.exists_shifted hv x
    have hread : u.read = s.read := by
      rw [hu]
      exact read_congr (congrArg (fun b => b.2.2.1) hshift.books)
    have hsolves : ∀ σ, u.tableau.Solves σ ↔ ∀ e ∈ s.constraints.entries,
        e.2.Equation (e.1.current (s.retarget v x).edits) (s.read σ) σ := by
      intro σ
      rw [← hread, hu]
      exact (hs.models_shifted hv hm hshift).solves_iff_equations hs.ledger.tagged
    have hrows : ∀ b, b ∈ u.tableau.basics ↔ ∃ r, (b.1, r) ∈ s.tableau.basics ∧
        b.2 = r.shift (s.shiftOf edit.tag (x - edit.constant) (b.1, r)) := by
      rw [hu]
      exact mem_basics_shiftEdit (s := s.retarget v x) (hs.ledger.tagged.knows _ hinstalled) _
    refine ⟨hpairs _ hinstalled (hs.ledger.held.relation_of_edit hv).2, hrows, hsolves,
      fun b hb d => ?_⟩
    simp only [← hsolves]
    exact hrep.layered.eq_shift_iff ((hrows _).mpr ⟨b.2, hb, rfl⟩) d
  · exact hs.absent_of_detach hf hx

/-- A width that cannot follow its suggestion misses it by the marker, and the other error
has coefficient one in its row.  The next suggestion shifts this row alone, and it is a
pair that the dual steps start with. -/
theorem suggestion_shifts_row_of_error :
    ∃ (s u : Solver Rat) (answers : List (SolverAnswer Rat)) (floor installed : Constraint Rat)
      (tag : Tag) (edit : Edit Rat) (o : Symbol) (r : Row Rat),
      floor = ⟨"floor", ⟨[.symbolic ⟨.entity ⟨0⟩, .width⟩ 1], -2⟩, .greaterOrEqual, .required⟩ ∧
      (empty .standard).run 9 [.add floor, .addEdit ⟨.entity ⟨0⟩, .width⟩ .strong,
        .suggest ⟨.entity ⟨0⟩, .width⟩ (-5)] = .ok (s, answers) ∧
      s.edits.get? ⟨.entity ⟨0⟩, .width⟩ = some edit ∧ edit.constant = -5 ∧
      edit.tag.other = some o ∧ s.tableau.row? edit.tag.marker = some r ∧ r.coefficient o = 1 ∧
      u = (s.retarget ⟨.entity ⟨0⟩, .width⟩ 7).shiftEdit edit.tag (7 - edit.constant) ∧
      (edit.tag.marker, r.shift (-12)) ∈ u.tableau.basics ∧
      (∀ b ∈ s.tableau.basics, b.1 ≠ edit.tag.marker → b ∈ u.tableau.basics) ∧
      u.MovesPairs ∧ s.constraints.find? floor = some (installed, tag) ∧
      ∀ x ∈ tag.symbols, (s.releasedAfter floor installed tag []).Absent x := by
  have hchain : ((empty .standard : Solver Rat).run 9 [
      .add ⟨"floor", ⟨[.symbolic ⟨.entity ⟨0⟩, .width⟩ 1], -2⟩, .greaterOrEqual, .required⟩,
      .addEdit ⟨.entity ⟨0⟩, .width⟩ .strong,
      .suggest ⟨.entity ⟨0⟩, .width⟩ (-5)]).toOption.any (fun p =>
        (p.1.edits.get? ⟨.entity ⟨0⟩, .width⟩).any (fun edit => decide (edit.constant = -5) &&
          p.1.tableau.isBasic edit.tag.marker) &&
        (p.1.constraints.find? ⟨"floor", ⟨[.symbolic ⟨.entity ⟨0⟩, .width⟩ 1], -2⟩,
          .greaterOrEqual, .required⟩).isSome) = true := by
    decide +kernel
  obtain ⟨⟨s, answers⟩, hrun, hrest⟩ := exists_ok_of_any hchain
  obtain ⟨hedit, hfloor⟩ := Bool.and_eq_true_iff.mp hrest
  obtain ⟨edit, hv, hedit⟩ := (Option.any_eq_true _ _).mp hedit
  obtain ⟨hconstant, hbasic⟩ := Bool.and_eq_true_iff.mp hedit
  have hconstant : edit.constant = -5 := of_decide_eq_true hconstant
  obtain ⟨⟨installed, tag⟩, hf⟩ := Option.isSome_iff_exists.mp hfloor
  obtain ⟨r, hr⟩ := Option.isSome_iff_exists.mp hbasic
  obtain ⟨-, hloops, hsuggest, hremove⟩ :=
    marker_and_other_move_as_pair .standard 9 (by decide +kernel) hrun
  obtain ⟨⟨o, ho, hpair⟩, hrows, -, -⟩ := hsuggest _ edit 7 hv _ rfl
  have hpairs := hloops (.suggest ⟨.entity ⟨0⟩, .width⟩ 7) (by decide +kernel) _ _ _
    (.single (.suggest hv (by rw [hconstant]; decide +kernel))) (.here _)
  have hshift : ∀ b : Symbol × Row Rat, s.shiftOf edit.tag (7 - edit.constant) b =
      if b.1 = edit.tag.marker then -12 else 0 := by
    intro b
    rw [shiftOf, if_pos hbasic, hconstant]
    norm_num
  have hknows : s.tableau.Knows edit.tag.marker := by
    have hl : s.Ledger := ledger_run .standard 9 _ _ hrun
    exact hl.tagged.knows _ (hl.held.installed _
      ((OrderedMap.get?_eq_some_iff hl.held.keys).mp hv)) _ (by simp [Tag.symbols])
  refine ⟨s, _, answers, _, installed, tag, edit, o, r, rfl, hrun, hv, hconstant, ho, hr,
    (hpair.left r hr).1, rfl, ?_, fun b hb hne => ?_, hpairs, hf,
    fun x hx => hremove _ _ _ hf x hx⟩
  · refine (hrows _).mpr ⟨r, Tableau.mem_basics_iff.mpr ⟨hknows, hr⟩, ?_⟩
    rw [hshift, if_pos rfl]
  · refine (hrows b).mpr ⟨b.2, hb, ?_⟩
    rw [hshift, if_neg hne, shift_zero]

end Runs

end Solver
end Tether
