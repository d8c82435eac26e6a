import Tether.Proofs.Exact.Confinement
import Tether.Proofs.Exact.Representing

/-!
# Redundant rows hold dummies only

The dummy of a required equality is what the expression lacks of zero.  Values of the
variables that violate some equalities are solutions too, with dummies that are not zero,
so a row of dummies says how far one equality is off if others are.  An equality whose
dummy is basic follows from the others: it is redundant.

A removed equality whose dummy stands in such a row has a twin there: each of the two
follows from the other and the remaining ones.  The twin gives its row up, and since
every row of dummies is zero, no constant changes.

Loops exchange restricted symbols only, so a dummy becomes basic when its own equality is
added, and at no other time.
-/

namespace Tether

open Simplex

section Equalities

/-- The constraint has to be zero. -/
def Constraint.RequiresEquality (c : Constraint Rat) : Prop :=
  c.relation = .equalTo ∧ c.strength.isRequired = true

variable {c : Constraint Rat} {tag : Tag} {ν : Variable → Rat} {σ : Symbol → Rat}
  {l : List (Constraint Rat × Tag)} {e d : Constraint Rat × Tag} {x : Symbol}

theorem Constraint.RequiresEquality.holds_iff (h : c.RequiresEquality) :
    c.Holds ν ↔ c.expression.eval ν = 0 := by
  unfold Holds
  rw [h.1]
  exact Scalar.isZero_iff

theorem Constraint.RequiresEquality.sense_eq (h : c.RequiresEquality) : c.sense = 1 := by
  rw [sense_of_equalTo h.1, if_pos h.2]

/-- The tier of a marker tells a required equality. -/
theorem Tag.Fits.requiresEquality_of_tier (h : tag.Fits c) (ht : tag.marker.tier = 0) :
    c.RequiresEquality := by
  by_cases hrel : c.relation = .equalTo
  · cases hr : c.strength.isRequired with
    | true => exact ⟨hrel, hr⟩
    | false =>
        have := (h.tier_marker_of_preference hrel hr).2
        omega
  · have := (h.tier_marker_of_ne hrel).2
    omega

/-- No symbol of a constraint but the dummy of an equality is in the lowest tier. -/
theorem Tag.Fits.marker_of_tier (h : tag.Fits c) (hx : x ∈ tag.symbols) (ht : x.tier = 0) :
    x = tag.marker ∧ c.RequiresEquality := by
  rcases List.mem_cons.mp hx with rfl | hx
  · exact ⟨rfl, h.requiresEquality_of_tier ht⟩
  · have hother := h.2
    rw [Option.mem_toList.mp hx, Option.map_some] at hother
    split at hother
    · cases hother
    · have := Symbol.tier_of_error (Option.some.inj hother)
      omega

/-- The constraint holds wherever all other required equalities of the list do. -/
def Redundant (l : List (Constraint Rat × Tag)) (e : Constraint Rat × Tag) : Prop :=
  ∀ ν, (∀ d ∈ l, d ≠ e → d.1.RequiresEquality → d.1.Holds ν) → e.1.Holds ν

/-- Where all other required equalities of the list hold, either both of the constraints
hold or none. -/
def Twins (l : List (Constraint Rat × Tag)) (e d : Constraint Rat × Tag) : Prop :=
  ∀ ν, (∀ f ∈ l, f ≠ e → f ≠ d → f.1.RequiresEquality → f.1.Holds ν) →
    (e.1.Holds ν ↔ d.1.Holds ν)

/-- A constraint with a twin is redundant. -/
theorem Twins.redundant (h : Twins l e d) (hd : d ∈ l) (hne : d ≠ e)
    (hr : d.1.RequiresEquality) : Redundant l e :=
  fun ν hν => (h ν (fun f hf hfe _ => hν f hf hfe)).mpr (hν d hd hne hr)

end Equalities

section Gauge

variable {c : Constraint Rat} {tag : Tag} {ν : Variable → Rat} {σ : Symbol → Rat}

/-- Symbols that balance a constraint at any values: the marker makes up for all that the
expression lacks of zero. -/
def Tag.gauge (tag : Tag) (c : Constraint Rat) (ν : Variable → Rat) : List (Symbol × Rat) :=
  (tag.marker, -(c.sense * c.expression.eval ν)) :: tag.other.toList.map (fun o => (o, 0))

theorem Tag.map_fst_gauge (tag : Tag) (c : Constraint Rat) (ν : Variable → Rat) :
    (tag.gauge c ν).map (·.1) = tag.symbols := by
  simp [gauge, symbols, Function.comp_def]

theorem Tag.balances_of_gauge (hσ : ∀ e ∈ tag.gauge c ν, σ e.1 = e.2) :
    tag.Balances c ν σ := by
  have hm : σ tag.marker = -(c.sense * c.expression.eval ν) :=
    hσ (tag.marker, _) (by simp [gauge])
  have ho : tag.other.elim 0 σ = 0 := by
    cases hother : tag.other with
    | none => rfl
    | some o => exact hσ (o, 0) (by simp [gauge, hother])
  unfold Tag.Balances
  rw [hm, ho]
  linear_combination -(c.expression.eval ν) * c.sense_mul_self

end Gauge

namespace Solver

section Dummies

variable {s : Solver Rat} {r : Row Rat} {x y : Symbol} {ν : Variable → Rat}
  {σ : Symbol → Rat} {e d : Constraint Rat × Tag}

/-- Any values of the variables extend to a solution, in which the dummies are what the
required equalities lack of zero. -/
theorem Represents.exists_solution (h : s.Represents) (ν : Variable → Rat) :
    ∃ σ, s.tableau.Solves σ ∧
      (∀ e ∈ s.constraints.entries, e.1.RequiresEquality →
        σ e.2.marker = -e.1.expression.eval ν) ∧
      ∀ x, x.tier = 0 → σ x = 0 ∨
        ∃ e ∈ s.constraints.entries, e.2.marker = x ∧ e.1.RequiresEquality := by
  have hwired := h.ledger.tagged.wired s.edits
  obtain ⟨σ, hvariables, hgauge, hother⟩ := hwired.exists_assignment h.ledger.counted ν
    (fun e => Tag.map_fst_gauge e.2 e.1 ν)
  refine ⟨σ, (h.models.solves σ).mpr (fun e he => ?_), fun e he hr => ?_, fun x hx => ?_⟩
  · exact (h.ledger.speaks.balances_iff h.ledger.counted hvariables he).mpr
      (Tag.balances_of_gauge (hgauge e he))
  · have hat := hgauge (e.1.current s.edits, e.2) (List.mem_map.mpr ⟨e, he, rfl⟩)
      (e.2.marker, _) (by rw [Tag.gauge]; exact List.mem_cons_self)
    rw [h.ledger.held.current_of_required hr.2, hr.sense_eq, one_mul] at hat
    exact hat
  · rcases hother x (by omega) with hzero | ⟨d, hd, hx'⟩
    · exact Or.inl hzero
    · obtain ⟨e, he, rfl⟩ := List.mem_map.mp hd
      have hm : x ∈ e.2.symbols := by
        rw [← Tag.map_fst_gauge e.2 (e.1.current s.edits) ν]
        exact List.mem_map.mpr ⟨_, hx', rfl⟩
      obtain ⟨rfl, hr⟩ := (h.ledger.tagged.fits e he).marker_of_tier hm hx
      exact Or.inr ⟨e, he, rfl, hr⟩

/-- A basic dummy is the marker of a required equality. -/
theorem Represents.exists_equality (h : s.Represents) (hb : (y, r) ∈ s.tableau.basics)
    (hy : y.tier = 0) :
    ∃ e ∈ s.constraints.entries, e.2.marker = y ∧ e.1.RequiresEquality := by
  by_contra hnone
  obtain ⟨hk, hrow⟩ := Tableau.mem_basics_iff.mp hb
  have habsent := h.models.absent_of_notMem h.layered hk h.ledger.counted (by omega)
    (fun d hd hyd => by
      obtain ⟨e, he, rfl⟩ := List.mem_map.mp hd
      obtain ⟨rfl, hr⟩ := (h.ledger.tagged.fits e he).marker_of_tier hyd hy
      exact hnone ⟨e, he, rfl, hr⟩)
  rw [habsent.row] at hrow
  cases hrow

/-- If all other dummies are zero, then a basic dummy is a multiple of the given one. -/
theorem Layered.eval_dummy (h : s.Layered) (hb : (y, r) ∈ s.tableau.basics) (hy : y.tier = 0)
    (hσ : s.tableau.Solves σ) (hzero : ∀ z, z.tier = 0 → z ≠ x → z ≠ y → σ z = 0) :
    σ y = r.coefficient x * σ x := by
  have hw : r.Within 0 := hy ▸ h.rows _ hb
  have hrow : r.eval σ = r.eval (Function.update 0 x (σ x)) := by
    refine Row.eval_congr (fun z hz => ?_)
    by_cases hzx : z = x
    · rw [hzx, Function.update_self]
    · rw [Function.update_of_ne hzx, Pi.zero_apply]
      exact hzero z (Nat.le_zero.mp (hw.tiers z hz)) hzx (h.proper.ne_of_basic hb hz).symm
  have hsolved : σ y = r.eval σ := hσ _ hb
  rw [hsolved, hrow, (h.ordered hb).eval_update, Row.eval_zero, hw.constant rfl,
    Pi.zero_apply, sub_zero, zero_add]

/-- The row of a dummy compares two equalities wherever all others hold. -/
theorem Represents.eval_eq (h : s.Represents) (hb : (d.2.marker, r) ∈ s.tableau.basics)
    (hd : d ∈ s.constraints.entries) (hdr : d.1.RequiresEquality)
    (he : e ∈ s.constraints.entries) (her : e.1.RequiresEquality)
    (hν : ∀ f ∈ s.constraints.entries, f ≠ e → f ≠ d → f.1.RequiresEquality → f.1.Holds ν) :
    d.1.expression.eval ν = r.coefficient e.2.marker * e.1.expression.eval ν := by
  obtain ⟨σ, hσ, hmarkers, hdummies⟩ := h.exists_solution ν
  have ht := ((h.ledger.tagged.fits d hd).tier_marker_of_required hdr.1 hdr.2).2
  have heval : σ d.2.marker = r.coefficient e.2.marker * σ e.2.marker := by
    refine h.layered.eval_dummy hb ht hσ (fun z hz hze hzd => ?_)
    rcases hdummies z hz with hzero | ⟨f, hf, rfl, hfr⟩
    · exact hzero
    · have hfν := hν f hf (fun hfe => hze (hfe ▸ rfl)) (fun hfd => hzd (hfd ▸ rfl)) hfr
      rw [hmarkers f hf hfr, hfr.holds_iff.mp hfν, neg_zero]
  rw [hmarkers d hd hdr, hmarkers e he her] at heval
  linarith

/-- Two equalities are twins if the dummy of the one stands in the row of the other. -/
theorem Represents.twins (h : s.Represents) (hb : (d.2.marker, r) ∈ s.tableau.basics)
    (hd : d ∈ s.constraints.entries) (hdr : d.1.RequiresEquality)
    (he : e ∈ s.constraints.entries) (her : e.1.RequiresEquality)
    (hc : r.coefficient e.2.marker ≠ 0) : Twins s.constraints.entries e d := by
  intro ν hν
  rw [her.holds_iff, hdr.holds_iff, h.eval_eq hb hd hdr he her hν, mul_eq_zero,
    or_iff_right hc]

/-- An equality whose dummy is basic is redundant. -/
theorem Represents.redundant (h : s.Represents) (hb : (d.2.marker, r) ∈ s.tableau.basics)
    (hd : d ∈ s.constraints.entries) (hr : d.1.RequiresEquality) :
    Redundant s.constraints.entries d := by
  intro ν hν
  have hself : d.2.marker ∉ r.symbols := fun hm => h.layered.proper.ne_of_basic hb hm rfl
  rw [hr.holds_iff, h.eval_eq hb hd hr hd hr (fun f hf hfd _ => hν f hf hfd),
    Row.coefficient_of_notMem hself, zero_mul]

end Dummies

section Grounding

/-- The rows of dummies hold dummies only and no constant, and their dummies are the
markers of redundant equalities. -/
structure GroundsDummies (s : Solver Rat) : Prop where
  rows : ∀ b ∈ s.tableau.basics, b.1.isDummy = true →
    b.2.constant = 0 ∧ ∀ c ∈ b.2.cells, c.1.isDummy = true
  redundant : ∀ b ∈ s.tableau.basics, b.1.isDummy = true →
    ∃ e ∈ s.constraints.entries, e.2.marker = b.1 ∧ e.1.RequiresEquality ∧
      Redundant s.constraints.entries e

variable {s t u start : Solver Rat} {c : Constraint Rat} {call : SolverCall Rat} {loop : Loop}
  {leaving entering x : Symbol} {r : Row Rat}

theorem Layered.row_of_dummy (h : s.Layered) {b : Symbol × Row Rat}
    (hb : b ∈ s.tableau.basics) (hd : b.1.isDummy = true) :
    b.2.constant = 0 ∧ ∀ c ∈ b.2.cells, c.1.isDummy = true := by
  have hw : b.2.Within 0 := Symbol.isDummy_iff.mp hd ▸ h.rows b hb
  refine ⟨hw.constant rfl, fun c hc => Symbol.isDummy_iff.mpr ?_⟩
  exact Nat.le_zero.mp (hw.tiers c.1 (Row.mem_symbols_iff.mpr ⟨c.2, hc⟩))

theorem Represents.groundsDummies (h : s.Represents) : s.GroundsDummies where
  rows := fun _ hb hd => h.layered.row_of_dummy hb hd
  redundant := by
    rintro ⟨y, r⟩ hb hd
    obtain ⟨e, he, rfl, hr⟩ := h.exists_equality hb (Symbol.isDummy_iff.mp hd)
    exact ⟨e, he, rfl, hr, h.redundant hb he hr⟩

/-- What a solver with the same constraints and no further dummies in the basis grounds. -/
theorem GroundsDummies.of_basic (h : s.GroundsDummies) (hl : u.Layered)
    (hc : u.constraints = s.constraints)
    (hb : ∀ b ∈ u.tableau.basics, b.1.isDummy = true →
      ∃ p, (b.1, p) ∈ s.tableau.basics) : u.GroundsDummies where
  rows := fun _ hm hd => hl.row_of_dummy hm hd
  redundant := by
    intro b hm hd
    obtain ⟨p, hp⟩ := hb b hm hd
    rw [hc]
    exact h.redundant (b.1, p) hp hd

/-- A loop exchanges restricted symbols. -/
theorem Loop.Proceeds.tiers (h : loop.Proceeds start t)
    (hp : Pivots t loop leaving entering r u) : leaving.tier = 1 ∧ entering.tier = 1 := by
  obtain ⟨hb, ha⟩ := h.exchanges hp
  cases hp with
  | primal hg hent hrow =>
      have hord := (admits_goalRow? h.layered.proper hg).ordered
      exact ⟨(exhausted_of_leaving? hrow).2.1,
        (lowers_of_entering? hord (within_goalRow? h.layered hg) hent).2⟩
  | dual hl hrow hent =>
      have hlt := Restoring.recorded h _
        (mem_stillInfeasible_iff.mp (mem_stillInfeasible_of_mostInfeasible? hl)).1
      have hne := (raises_of_dualEntering? (h.layered.ordered hb) hent).2.1
      have hle := (h.layered.rows _ hb).tiers entering (Row.mem_symbols_of_coefficient ha)
      dsimp only at hle
      exact ⟨hlt, by omega⟩

/-- No loop makes a dummy basic or parametric. -/
theorem Loop.Proceeds.isBasic_of_dummy (h : loop.Proceeds start t)
    (hv : Visits loop.step t u) (hk : start.tableau.Knows x) (hx : x.tier = 0) :
    u.tableau.isBasic x = t.tableau.isBasic x := by
  induction hv with
  | here => rfl
  | @later t t' u hp _ ih =>
      obtain ⟨leaving, entering, r, hp⟩ := exists_pivots hp
      obtain ⟨hb, ha⟩ := h.exchanges hp
      obtain ⟨hleaving, hentering⟩ := h.tiers hp
      have hkt := (h.equivalent.knows x).mpr hk
      have hother : ∀ {y : Symbol}, t.tableau.Knows y → y.tier = 1 → x.id ≠ y.id := by
        intro y hy hyt hid
        obtain rfl := hkt.eq_of_id_eq hy hid
        omega
      have hke := ((h.layered.proper.rows.admits hb).parametric entering
        (Row.mem_symbols_of_coefficient ha)).1
      rw [ih (h.pivots hp), Bool.eq_iff_iff, ← Tableau.id_mem_basicNumbers,
        ← Tableau.id_mem_basicNumbers, h.basicNumbers hp, Finset.mem_insert, Finset.mem_erase,
        or_iff_right (hother hke hentering),
        and_iff_right (hother (Tableau.mem_basics_iff.mp hb).1 hleaving)]

/-- Every loop starts where redundant rows are grounded. -/
theorem Sound.grounds_starts (hs : s.Sound) (h : Starts s call loop start) :
    start.GroundsDummies := by
  by_cases hne : loop = .primal .artificial
  · subst hne
    have hl := (hs.proceeds h).layered
    obtain ⟨c, -, rfl⟩ := h.exists_probing
    have hd := (drafted_createRow hs.ledger hs.optimal.layered c).drafts
    refine hs.represents.groundsDummies.of_basic hl hd.constraints (fun b hb hdum => ?_)
    rcases mem_basics_host.mp hb with rfl | hb
    · cases hdum
    · exact ⟨b.2, hd.tableau.mem_basics_iff.mp hb⟩
  · exact (hs.represents_starts h hne).groundsDummies

/-- Every state of a loop grounds redundant rows, and has the dummies in the basis that the
first one has. -/
theorem Sound.grounds_visited (hs : s.Sound) (hw : call.Weighted)
    (h : Undertakes s call loop start) (hv : Visits loop.step start t) :
    t.GroundsDummies ∧ ∀ x, start.tableau.Knows x → x.isDummy = true →
      t.tableau.isBasic x = start.tableau.isBasic x := by
  obtain ⟨u, call', hu, hstarts⟩ := hs.exists_starts hw h
  have hstart := hu.proceeds hstarts
  have ht := hstart.visits hv
  have hbasic : ∀ x, start.tableau.Knows x → x.isDummy = true →
      t.tableau.isBasic x = start.tableau.isBasic x :=
    fun x hk hd => hstart.isBasic_of_dummy hv hk (Symbol.isDummy_iff.mp hd)
  refine ⟨(hu.grounds_starts hstarts).of_basic ht.layered
    (congrArg (fun b => b.2.1) (books_of_visits hv)) (fun b hb hd => ?_), hbasic⟩
  obtain ⟨hk, hrow⟩ := Tableau.mem_basics_iff.mp hb
  have hk := (ht.equivalent.knows b.1).mp hk
  have hstart : (start.tableau.row? b.1).isSome = true :=
    (hbasic b.1 hk hd).symm.trans (Option.isSome_iff_exists.mpr ⟨b.2, hrow⟩)
  obtain ⟨p, hp⟩ := Option.isSome_iff_exists.mp hstart
  exact ⟨p, Tableau.mem_basics_iff.mpr ⟨hk, hp⟩⟩

end Grounding

section Yielding

variable {s w : Solver Rat} {c installed : Constraint Rat} {tag : Tag}
  {leaving x : Symbol} {r q : Row Rat}

/-- A row that is zero may take the place of a symbol without changing a value. -/
theorem Proper.symbolValue_substitute (h : s.Proper) (hq : q.constant = 0) (x : Symbol) :
    (s.substitute x q).symbolValue = s.symbolValue := by
  funext y
  rw [symbolValue_eq, symbolValue_eq, rowAt?_substitute]
  cases hy : s.tableau.rowAt? y.id with
  | none => rfl
  | some p =>
      show (p.substitute x q).constant = p.constant
      rw [(h.rows y.id p hy).ordered.constant_substitute, hq, mul_zero, add_zero]

/-- The row of a dummy that gives way to a marker. -/
theorem Relieved.exchange_dummy (h : Relieved s tag w)
    (hrow : withRow w.tableau (markerLeaving? w.tableau tag.marker) = some (leaving, r))
    (hl : leaving.isDummy = true) :
    (leaving, r) ∈ w.tableau.basics ∧ r.coefficient tag.marker ≠ 0 ∧ tag.marker.tier = 0 ∧
      r.constant = 0 ∧ (r.exchange leaving tag.marker).constant = 0 := by
  obtain ⟨hm, hc, -⟩ := yields_of_markerLeaving? hrow
  have hwithin : r.Within 0 := Symbol.isDummy_iff.mp hl ▸ h.layered.rows _ hm
  have hin := Row.mem_symbols_of_coefficient hc
  have hzero := hwithin.constant rfl
  refine ⟨hm, hc, Nat.le_zero.mp (hwithin.tiers _ hin), hzero, ?_⟩
  rw [Row.constant_exchange (h.layered.ordered hm) (h.layered.proper.ne_of_basic hm hin) hc,
    hzero, neg_zero, zero_div]

/-- A removal in which the row of a dummy gives way drops that row and changes neither
another constant nor a value. -/
theorem Relieved.removeMarker_of_dummy (h : Relieved s tag w)
    (hbasic : w.tableau.isBasic tag.marker = false)
    (hrow : withRow w.tableau (markerLeaving? w.tableau tag.marker) = some (leaving, r))
    (hl : leaving.isDummy = true) :
    (∀ x k, (∃ p, (x, p) ∈ (w.removeMarker tag.marker).tableau.basics ∧ p.constant = k) ↔
      x ≠ leaving ∧ ∃ p, (x, p) ∈ w.tableau.basics ∧ p.constant = k) ∧
    (w.removeMarker tag.marker).objective.constant = w.objective.constant ∧
    (w.removeMarker tag.marker).symbolValue = w.symbolValue := by
  obtain ⟨hm, -, -, hzero, hq⟩ := h.exchange_dummy hrow hl
  obtain ⟨hk, hrow'⟩ := Tableau.mem_basics_iff.mp hm
  have he : w.removeMarker tag.marker =
      (w.dropRow leaving).substitute tag.marker (r.exchange leaving tag.marker) := by
    rw [Solver.removeMarker, hbasic, if_neg Bool.false_ne_true, hrow]
  have hconstant : ∀ p : Row Rat, p.Ordered →
      (p.substitute tag.marker (r.exchange leaving tag.marker)).constant = p.constant := by
    intro p hp
    rw [hp.constant_substitute, hq, mul_zero, add_zero]
  rw [he]
  refine ⟨fun x k => ⟨?_, ?_⟩, hconstant _ h.layered.proper.objective.ordered, ?_⟩
  · rintro ⟨p, hp, rfl⟩
    obtain ⟨p₀, hp₀, hsub⟩ := mem_basics_substitute.mp hp
    obtain ⟨hp₀, hne⟩ := (mem_basics_dropRow hk).mp hp₀
    dsimp only at hsub
    exact ⟨hne, p₀, hp₀, by rw [hsub, hconstant p₀ (h.layered.ordered hp₀)]⟩
  · rintro ⟨hne, p, hp, rfl⟩
    exact ⟨_, mem_basics_substitute.mpr ⟨p, (mem_basics_dropRow hk).mpr ⟨hp, hne⟩, rfl⟩,
      hconstant p (h.layered.ordered hp)⟩
  · rw [(h.layered.proper.dropRow leaving).symbolValue_substitute hq,
      symbolValue_dropRow hrow' hzero]

/-- Only an equality with a twin makes the row of a dummy give way, and the twin is the
equality of that dummy. -/
theorem Sound.twins_of_yielding (hs : s.Sound)
    (hf : s.constraints.find? c = some (installed, tag))
    (h : Relieved s tag w)
    (hrow : withRow w.tableau (markerLeaving? w.tableau tag.marker) = some (leaving, r))
    (hl : leaving.isDummy = true) :
    installed.RequiresEquality ∧ Redundant s.constraints.entries (installed, tag) ∧
      ∃ e ∈ (s.constraints.erase c).entries, e.2.marker = leaving ∧ e.1.RequiresEquality ∧
        Redundant s.constraints.entries e ∧
        Twins s.constraints.entries (installed, tag) e := by
  obtain ⟨hm, hc, ht, -⟩ := h.exchange_dummy hrow hl
  rw [h.tableau] at hm
  have hrep := hs.represents
  have hi := (OrderedMap.mem_of_find? hf).1
  have hir : installed.RequiresEquality :=
    (hrep.ledger.tagged.fits _ hi).requiresEquality_of_tier ht
  obtain ⟨e, he, rfl, her⟩ := hrep.exists_equality hm (Symbol.isDummy_iff.mp hl)
  have hne : e ≠ (installed, tag) := by
    rintro rfl
    exact hrep.layered.proper.ne_of_basic hm (Row.mem_symbols_of_coefficient hc) rfl
  have htwins : Twins s.constraints.entries (installed, tag) e :=
    hrep.twins (e := (installed, tag)) hm he her hi hir hc
  have hremains : e ∈ (s.constraints.erase c).entries := by
    obtain ⟨before, after, hentries, herase⟩ := OrderedMap.exists_append_of_find? hf
    rw [hentries] at he
    rw [herase]
    simpa [hne] using he
  exact ⟨hir, htwins.redundant he hne her, e, hremains, rfl, her, hrep.redundant hm he her,
    htwins⟩

end Yielding

section Runs

variable {s : Solver Rat} {answers : List (SolverAnswer Rat)} {calls : List (SolverCall Rat)}

/-- After every run the row of a dummy holds dummies only and no constant, and the dummy is
the marker of a redundant required equality.  So it is in every state that a loop of a
further call visits, and no loop makes a dummy basic or parametric.  When the row of a dummy
gives way to the marker of a removed constraint, then the constraint is a redundant required
equality, the dummy is the marker of a redundant twin that stays, and no constant and no
value changes. -/
theorem redundant_rows_hold_dummies_only (settings : Settings Rat) (limit : Nat)
    (hw : ∀ call ∈ calls, call.Weighted)
    (hrun : (empty settings).run limit calls = .ok (s, answers)) :
    s.GroundsDummies ∧
    (∀ call : SolverCall Rat, call.Weighted → ∀ loop start t, Undertakes s call loop start →
      Visits loop.step start t →
        t.GroundsDummies ∧ ∀ x, start.tableau.Knows x → x.isDummy = true →
          t.tableau.isBasic x = start.tableau.isBasic x) ∧
    ∀ c installed tag, s.constraints.find? c = some (installed, tag) →
      ∀ w, w = s.relievedOf c installed tag → ∀ leaving r,
        w.tableau.isBasic tag.marker = false →
        withRow w.tableau (markerLeaving? w.tableau tag.marker) = some (leaving, r) →
        leaving.isDummy = true →
          (installed.RequiresEquality ∧ Redundant s.constraints.entries (installed, tag) ∧
            ∃ e ∈ (s.constraints.erase c).entries, e.2.marker = leaving ∧
              e.1.RequiresEquality ∧ Redundant s.constraints.entries e ∧
              Twins s.constraints.entries (installed, tag) e) ∧
          (∀ x k, (∃ p, (x, p) ∈ (w.removeMarker tag.marker).tableau.basics ∧ p.constant = k) ↔
            x ≠ leaving ∧ ∃ p, (x, p) ∈ w.tableau.basics ∧ p.constant = k) ∧
          (w.removeMarker tag.marker).objective.constant = w.objective.constant ∧
          (w.removeMarker tag.marker).symbolValue = w.symbolValue := by
  have hs : s.Sound := sound_run settings limit hw _ hrun
  refine ⟨hs.represents.groundsDummies, fun call hcall loop start t hstart ht =>
    hs.grounds_visited hcall hstart ht, fun c installed tag hf w he leaving r hbasic hrow hl => ?_⟩
  have hrelieved : Relieved s tag w := he ▸ hs.relieved hf
  exact ⟨hs.twins_of_yielding hf hrelieved hrow hl,
    hrelieved.removeMarker_of_dummy hbasic hrow hl⟩

/-- A width of five makes twice the width ten.  The second equality is redundant while the
first is there, and gives its row up when that one is removed. -/
theorem double_gives_row_up :
    ∃ (s w : Solver Rat) (answers : List (SolverAnswer Rat)) (five installed : Constraint Rat)
      (tag : Tag) (leaving : Symbol) (r : Row Rat),
      five = ⟨"five", ⟨[.symbolic ⟨.entity ⟨0⟩, .width⟩ 1], -5⟩, .equalTo, .required⟩ ∧
      (empty .standard).run 9 [.add five, .add ⟨"double",
        ⟨[.symbolic ⟨.entity ⟨0⟩, .width⟩ 2], -10⟩, .equalTo, .required⟩] =
          .ok (s, answers) ∧
      s.constraints.find? five = some (installed, tag) ∧ w = s.relievedOf five installed tag ∧
      withRow w.tableau (markerLeaving? w.tableau tag.marker) = some (leaving, r) ∧
      leaving.isDummy = true ∧ s.GroundsDummies ∧
      (∃ e ∈ (s.constraints.erase five).entries, e.2.marker = leaving ∧
        Twins s.constraints.entries (installed, tag) e) ∧
      (w.removeMarker tag.marker).symbolValue = w.symbolValue := by
  have hchain : ((empty .standard : Solver Rat).run 9 [
      .add ⟨"five", ⟨[.symbolic ⟨.entity ⟨0⟩, .width⟩ 1], -5⟩, .equalTo, .required⟩,
      .add ⟨"double", ⟨[.symbolic ⟨.entity ⟨0⟩, .width⟩ 2], -10⟩, .equalTo,
        .required⟩]).toOption.any (fun p =>
      (p.1.constraints.find? ⟨"five", ⟨[.symbolic ⟨.entity ⟨0⟩, .width⟩ 1], -5⟩, .equalTo,
        .required⟩).any (fun e =>
          let w := p.1.relievedOf ⟨"five", ⟨[.symbolic ⟨.entity ⟨0⟩, .width⟩ 1], -5⟩, .equalTo,
            .required⟩ e.1 e.2
          !w.tableau.isBasic e.2.marker &&
          (withRow w.tableau (markerLeaving? w.tableau e.2.marker)).any
            (fun b => b.1.isDummy))) = true := by
    decide +kernel
  obtain ⟨⟨s, answers⟩, hrun, hrest⟩ := exists_ok_of_any hchain
  obtain ⟨⟨installed, tag⟩, hf, hrest⟩ := (Option.any_eq_true _ _).mp hrest
  simp only [Bool.and_eq_true, Bool.not_eq_true'] at hrest
  obtain ⟨hbasic, hrow⟩ := hrest
  obtain ⟨⟨leaving, r⟩, hrow, hl⟩ := (Option.any_eq_true _ _).mp hrow
  obtain ⟨hgrounds, -, hremoval⟩ :=
    redundant_rows_hold_dummies_only .standard 9 (by decide +kernel) hrun
  obtain ⟨⟨-, -, e, he, hmarker, -, -, htwins⟩, -, -, hvalues⟩ :=
    hremoval _ _ _ hf _ rfl leaving r hbasic hrow hl
  exact ⟨s, _, answers, _, installed, tag, leaving, r, rfl, hrun, hf, rfl, hrow, hl, hgrounds,
    ⟨e, he, hmarker, htwins⟩, hvalues⟩

end Runs

end Solver
end Tether
