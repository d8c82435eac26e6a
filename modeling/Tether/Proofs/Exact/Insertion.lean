import Tether.Proofs.Exact.Drafting
import Tether.Proofs.Exact.Probing
import Tether.Proofs.Exact.Releasing

/-!
# Addition decides

Adding a constraint to a sound solver has one of two outcomes.  Either the row
of the constraint is taken in, and then the solver is sound with the constraint
installed; or the row is not zero at any lawful solution, and then no values of
the variables satisfy the constraint beside the required ones.  Which subject is
chosen, and whether a probe is made, does not matter.
-/

namespace Tether
namespace Solver

open Simplex

variable {s u w : Solver Rat} {r : Row Rat} {c : Constraint Rat} {tag : Tag}
  {σ : Symbol → Rat} {ν : Variable → Rat}

section Enlisting

theorem read_enlist (s : Solver Rat) (c : Constraint Rat) (tag : Tag) :
    (s.enlist c tag).read = s.read :=
  retainVariables_induction (motive := fun m => Solver.read { s with unknowns := m } = s.read) rfl
    (fun m t hm => (read_countReference { s with unknowns := m } _ t).trans hm) c

theorem Layered.enlist (h : w.Layered) (c : Constraint Rat) (tag : Tag) :
    (w.enlist c tag).Layered :=
  ⟨⟨h.proper.rows, h.proper.objective, h.proper.artificial, h.proper.infeasible⟩, h.rows,
    h.objective, h.artificial⟩

/-- A constraint that is not installed holds no edit variable. -/
theorem current_of_new {edits : OrderedMap Variable (Edit Rat)}
    (h : Held edits s.constraints.entries) (hc : s.hasConstraint c = false) :
    c.current edits = c :=
  Constraint.current_of_none (fun e he =>
    by simpa using List.any_eq_false.mp hc _ (h.installed e he))

theorem demands_concat {edits : OrderedMap Variable (Edit Rat)}
    (h : Held edits s.constraints.entries) (hc : s.hasConstraint c = false) :
    demands edits (s.constraints.entries ++ [(c, tag)]) =
      demands edits s.constraints.entries ++ [(c, tag)] := by
  simp [demands, current_of_new h hc]

theorem penalty_concat (σ : Symbol → Rat) (l : List (Constraint Rat × Tag)) :
    penalty σ (l ++ [(c, tag)]) = penalty σ l + c.strength.value * tag.missed σ := by
  simp [penalty]

variable (hs : s.Sound) (hc : s.hasConstraint c = false) (hd : Drafted s c r tag u)
include hs hc hd

/-- The solutions at which the new row is zero are the symbols that balance the
constraints and the new one. -/
theorem Drafted.solves_iff : u.tableau.Solves σ ∧ r.eval σ = 0 ↔
    ∀ e ∈ demands s.edits (s.constraints.entries ++ [(c, tag)]),
      e.2.Balances e.1 (u.read σ) σ := by
  have hread : ∀ e ∈ demands s.edits s.constraints.entries,
      (e.2.Balances e.1 (s.read σ) σ ↔ e.2.Balances e.1 (u.read σ) σ) := by
    intro e he
    refine Tag.balances_congr (fun t ht hz => ?_)
    exact (hd.drafts.read_eq (hs.ledger.speaks e he t ht hz)).symm
  rw [demands_concat hs.ledger.held hc, List.forall_mem_append, List.forall_mem_singleton,
    hd.drafts.solves_iff, hs.optimal.models.solves, forall₂_congr hread]
  refine and_congr_right (fun hb => hd.row σ ?_)
  rw [hs.optimal.models.solves, forall₂_congr hread]
  exact hb

/-- A solver that hosts the new row models the constraints and the new one. -/
theorem Drafted.standing_enlist (hw : Hosts u r w) (hb : w.books = u.books) :
    (w.enlist c tag).Standing (demands s.edits (s.constraints.entries ++ [(c, tag)])) := by
  have hread : (w.enlist c tag).read = u.read :=
    (read_enlist w c tag).trans (read_congr (congrArg (fun b => b.2.2.1) hb))
  obtain ⟨k, hk⟩ := hs.optimal.models.objective
  refine ⟨hw.layered.enlist c tag, hw.feasible, fun σ => ?_, k, fun σ hσ => ?_⟩
  · rw [hread, ← Drafted.solves_iff hs hc hd]
    exact hw.solves σ
  · have hu := (hw.solves σ).mp hσ
    have hsσ := hd.drafts.solves_iff.mp hu.1
    rw [demands_concat hs.ledger.held hc, penalty_concat, ← add_assoc, ← hk σ hsσ,
      ← hd.objective σ]
    exact hw.objective σ hσ

variable (hv : ∀ t ∈ c.expression.terms, Scalar.nearZero t.coefficient = false →
  u.unknowns.contains t.unknown = true)
include hv

/-- If the new row is not zero at any lawful solution, then no values satisfy the
required constraints beside the new one. -/
theorem Drafted.contradicts
    (hne : ∀ σ, u.tableau.Solves σ → u.tableau.Lawful σ → r.eval σ ≠ 0)
    (hνc : c.strength.isRequired = true → c.Holds ν)
    (hν : ∀ d ∈ s.constraints.keys, d.strength.isRequired = true → d.Holds ν) : False := by
  obtain ⟨hl, hlist⟩ :=
    hd.toMade.ledger_enlist hs.ledger hc hv hd.ledger rfl (fun _ hx => hx)
  have hedits : (u.enlist c tag).edits = s.edits := hd.drafts.edits
  have hentries : (u.enlist c tag).constraints.entries =
    s.constraints.entries ++ [(c, tag)] := hlist
  have hall : ∀ d ∈ (u.enlist c tag).constraints.keys, d.strength.isRequired = true →
      d.Holds ν := by
    unfold OrderedMap.keys
    rw [hentries, List.map_append, List.forall_mem_append]
    refine ⟨hν, ?_⟩
    rw [List.map_singleton, List.forall_mem_singleton]
    exact hνc
  obtain ⟨σ, hlaw, hb, -⟩ := hl.speaks.exists_balanced (hl.tagged.wired _) hl.counted
    (hl.holds_demands hall)
  rw [hedits, hentries, read_enlist, ← Drafted.solves_iff hs hc hd] at hb
  exact hne σ hb.1 hlaw hb.2

/-- Installing a constraint whose row is hosted keeps the solver sound. -/
theorem Drafted.sound_install (hpos : 0 ≤ c.strength.value) (hw : Hosts u r w) (hl : w.Ledger)
    (hb : w.books = u.books) (hk : ∀ x, u.tableau.Knows x → w.tableau.Knows x)
    (hq : w.Quiet) (limit : Nat) :
    Ensures (install limit w c tag) (fun p => p.2 = .ok () ∧ p.1.Sound ∧
      p.1.constraints.keys = s.constraints.keys ++ [c]) := by
  obtain ⟨hledger, hlist⟩ := hd.toMade.ledger_enlist hs.ledger hc hv hl hb hk
  have hstanding := Drafted.standing_enlist hs hc hd hw hb
  have hedits : w.edits = s.edits :=
    (congrArg (fun b => b.2.2.2) hb).trans hd.drafts.edits
  have hweights : ∀ e ∈ s.constraints.entries ++ [(c, tag)], 0 ≤ e.1.strength.value := by
    rw [List.forall_mem_append, List.forall_mem_singleton]
    exact ⟨hs.weights, hpos⟩
  have hwired := hledger.tagged.wired w.edits
  have hentries : (w.enlist c tag).constraints.entries =
    s.constraints.entries ++ [(c, tag)] := hlist
  rw [hentries, hedits] at hwired
  have hre := hstanding.reoptimize hwired (nonneg_demands hweights) limit AddError.internal
  refine ((hre.and (hledger.install limit)).and (hq.idle_install limit c tag)).mono ?_
  rintro ⟨p, answer⟩ ⟨⟨⟨rfl, ho⟩, hl', -, he', hc'⟩, hidle⟩
  dsimp only at ho hl' he' hc' hidle ⊢
  refine ⟨rfl, ⟨hl', hidle (fun text he => by cases he), ?_, ?_⟩, ?_⟩
  · rw [hc', he', hedits, hlist]
    exact ho
  · rw [hc', hlist]
    exact hweights
  · rw [hc', OrderedMap.keys, hlist, List.map_append]
    rfl

end Enlisting

section Probing

theorem Layered.withJournal (h : u.Layered) (j : Option (Journal Rat)) :
    Layered { u with tableau := { u.tableau with journal := j } } :=
  ⟨h.proper.withJournal j, h.rows, h.objective, h.artificial⟩

variable (hd : Drafted s c r tag u) (hsub : subject? r tag = none)
include hd hsub

/-- A row without a subject speaks of no variable. -/
theorem Drafted.within_one : r.Within 1 := by
  refine ⟨hd.within.reduced, fun y hy => ?_, by omega⟩
  have := hd.within.tiers y hy
  have := subject?_of_none hsub y hy
  omega

variable (hs : s.Sound)
include hs

/-- A row without a subject can be hosted by an artificial variable. -/
theorem Drafted.probed_host : Probed { u with tableau := u.tableau.openJournal } r
    (newSymbol { u with tableau := u.tableau.openJournal } .slack).1
    (host { u with tableau := u.tableau.openJournal } r) := by
  have hf : u.Feasible := hs.optimal.feasible.of_drafts hd.drafts
  have hr : u.tableau.openJournal.Admits r := hd.admits.of_parametric (fun _ _ hy => hy)
  exact Solver.probed_host (hd.layered.withJournal _) hf hr (Drafted.within_one hd hsub) hd.nonneg

/-- A probe decides whether the new row is zero at any lawful solution. -/
theorem Drafted.decides_probe (hdum : r.allDummies = false) (limit : Nat) :
    Ensures (probe limit { u with tableau := u.tableau.openJournal } r) (fun p =>
      (p.2 = .ok true ∧ Hosts u r p.1.keepProbe) ∨
        (p.2 = .ok false ∧ ∀ σ, u.tableau.Solves σ → u.tableau.Lawful σ → r.eval σ ≠ 0)) := by
  have hw := Drafted.within_one hd hsub
  obtain ⟨x, hx, hxt⟩ : ∃ x ∈ r.symbols, x.tier = 1 := by
    obtain ⟨e, he, hed⟩ := List.all_eq_false.mp hdum
    have hm := Row.mem_symbols_iff.mpr ⟨e.2, he⟩
    have h₀ := Symbol.isDummy_eq_false_iff.mp (by simpa using hed)
    have := hw.tiers e.1 hm
    exact ⟨e.1, hm, by omega⟩
  have hl : Layered { u with tableau := u.tableau.openJournal } := hd.layered.withJournal _
  have hf : u.Feasible := hs.optimal.feasible.of_drafts hd.drafts
  have hr : u.tableau.openJournal.Admits r := hd.admits.of_parametric (fun _ _ hy => hy)
  refine (probe_decides hl hf hr hw hd.nonneg hx hxt limit).mono ?_
  rintro ⟨p, answer⟩ (⟨rfl, hh⟩ | ⟨rfl, hne⟩)
  · exact Or.inl ⟨rfl, hh.layered.withJournal none, hh.feasible, hh.solves, hh.objective⟩
  · exact Or.inr ⟨rfl, fun σ hσ hlaw => hne σ hσ ⟨hlaw.nonneg, hlaw.zero⟩⟩

/-- After a probe with success the row is hosted and the books are in order. -/
theorem Drafted.ledger_keepProbe (hdum : r.allDummies = false) {limit : Nat}
    (hw : probe limit { u with tableau := u.tableau.openJournal } r = .ok (w, .ok true)) :
    Hosts u r w.keepProbe ∧ w.keepProbe.Ledger ∧ w.keepProbe.books = u.books ∧
      ∀ x, u.tableau.Knows x → w.keepProbe.tableau.Knows x := by
  rcases Drafted.decides_probe hd hsub hs hdum limit _ hw with ⟨-, hhosts⟩ | ⟨hno, -⟩
  · exact ⟨hhosts, hd.toMade.ledger_keepProbe hw⟩
  · cases hno

end Probing

section Taking

theorem tier_of_allDummies (hdum : r.allDummies = true) : ∀ y ∈ r.symbols, y.tier = 0 := by
  intro y hy
  obtain ⟨a, ha⟩ := Row.mem_symbols_iff.mp hy
  exact Symbol.isDummy_iff.mp (List.all_eq_true.mp hdum _ ha)

variable (hd : Drafted s c r tag u) (hs : s.Sound)
include hd hs

/-- The subject of a new row may enter. -/
theorem Drafted.hosts_subject {x : Symbol} (hx : subject? r tag = some x) :
    Hosts u r (u.enter x (r.solveFor x)) := by
  have hnew : ∀ b ∈ u.tableau.basics, ∀ x ∈ tag.symbols, x ∉ b.2.symbols := by
    intro b hb x hx hin
    have hbs := hd.drafts.tableau.mem_basics_iff.mp hb
    have hlt := ((hs.optimal.layered.proper.rows.admits hbs).parametric x hin).1.id_lt
    have := hd.fresh x hx
    omega
  exact Solver.hosts_subject hd.layered (hs.optimal.feasible.of_drafts hd.drafts) hd.admits
    hd.within hd.nonneg hnew hx

/-- The marker of a redundant row of dummies may enter. -/
theorem Drafted.hosts_dummy (hdum : r.allDummies = true)
    (hz : Scalar.nearZero r.constant = true) :
    Hosts u r (u.enter tag.marker (r.solveFor tag.marker)) := by
  have htier := tier_of_allDummies hdum
  have hw : r.Within 0 :=
    ⟨hd.within.reduced, fun y hy => (htier y hy).le, fun _ => Scalar.nearZero_iff.mp hz⟩
  exact Solver.hosts_dummy hd.layered (hs.optimal.feasible.of_drafts hd.drafts) hd.admits hw
    hd.marker (htier _ (Row.mem_symbols_of_coefficient hd.marker))

end Taking

section Adding

/-- No values satisfy a constraint beside the required ones that are installed. -/
def Contradicts (c : Constraint Rat) (s : Solver Rat) : Prop :=
  ∀ ν : Variable → Rat, (c.strength.isRequired = true → c.Holds ν) →
    ¬ ∀ d ∈ s.constraints.keys, d.strength.isRequired = true → d.Holds ν

/-- A preference never contradicts the required constraints. -/
theorem Sound.isRequired_of_contradicts (h : s.Sound) (hc : Contradicts c s) :
    c.strength.isRequired = true := by
  by_contra hr
  exact hc s.value (fun hr' => absurd hr' hr) (fun _ hd hdr => h.holds hd hdr)

/-- An addition succeeds or rejects what contradicts the required constraints. -/
def Decides (s : Solver Rat) (c : Constraint Rat) (p : Solver Rat × Except AddError Unit) :
    Prop :=
  (p.2 = .ok () ∧ p.1.Sound ∧ p.1.constraints.keys = s.constraints.keys ++ [c]) ∨
    (p.2 = .error .unsatisfiableConstraint ∧ Contradicts c s)

variable (hs : s.Sound) (hc : s.hasConstraint c = false) (hd : Drafted s c r tag u)
  (hv : ∀ t ∈ c.expression.terms, Scalar.nearZero t.coefficient = false →
    u.unknowns.contains t.unknown = true) (hpos : 0 ≤ c.strength.value)
include hs hc hd hv hpos

theorem Drafted.decides_enter {x : Symbol} (hx : x ∈ r.symbols ∨ x ∈ tag.symbols)
    (hw : Hosts u r (u.enter x (r.solveFor x))) (limit : Nat) :
    Ensures (install limit (u.enter x (r.solveFor x)) c tag) (Decides s c) := by
  have hq : u.Quiet := ⟨hd.drafts.artificial.trans hs.idle.artificial,
    hd.drafts.tableau.journal_eq.trans hs.idle.journal⟩
  refine (Drafted.sound_install hs hc hd hv hpos hw (hd.toMade.ledger_enter hx)
    (books_enter _ _ _)
    (fun _ hy => knows_enter.mpr hy) (rowStable_quiet.enter _ _ _ hq) limit).mono ?_
  exact fun _ hp => Or.inl hp

/-- A probe decides. -/
theorem Drafted.decides_installByProbe (hsub : subject? r tag = none)
    (hdum : r.allDummies = false) (limit : Nat) :
    Ensures (installByProbe limit u s.unknowns.size c r tag) (Decides s c) := by
  unfold installByProbe
  refine Ensures.bind ?_
  rintro ⟨p, answer⟩ hp
  rcases Drafted.decides_probe hd hsub hs hdum limit _ hp with ⟨rfl, -⟩ | ⟨rfl, hne⟩
  · obtain ⟨hkeep, hledger, hbooks, hknows⟩ := Drafted.ledger_keepProbe hd hsub hs hdum hp
    refine (Drafted.sound_install hs hc hd hv hpos hkeep hledger hbooks hknows
      ⟨ensures_probe_artificial limit _ _ _ hp true rfl, rfl⟩ limit).mono ?_
    exact fun _ hp => Or.inl hp
  · refine ensures_ok (Or.inr ⟨rfl, fun ν hνc hν => ?_⟩)
    exact Drafted.contradicts hs hc hd hv hne hνc hν

omit hs hc hd hv hpos in
/-- A row of dummies is its constant at every lawful solution. -/
theorem eval_of_dummies (hr : u.tableau.Admits r) (hdum : ∀ y ∈ r.symbols, y.tier = 0)
    (hlaw : u.tableau.Lawful σ) : r.eval σ = r.constant := by
  rw [← Row.eval_zero r]
  exact Row.eval_congr (fun y hy => hlaw.zero y (hr.parametric y hy).1 (hdum y hy))

end Adding

section Rejecting

/-- Unused symbols do not matter. -/
theorem Sound.of_givesBack (h : s.Sound) (hback : u.GivesBack s) (hl : u.Ledger) : u.Sound := by
  obtain ⟨t, hpad, hu⟩ := hback
  generalize u.tableau.faulted = mark at hu
  subst hu
  have hb := fun b => hpad.mem_basics_iff (b := b)
  have hsolves : ∀ σ, { t with faulted := mark }.Solves σ ↔ s.tableau.Solves σ :=
    fun σ => forall_congr' (fun b => imp_congr_left (hb b))
  obtain ⟨k, hk⟩ := h.optimal.models.objective
  refine ⟨hl, ⟨h.idle.artificial, hpad.journal_eq.trans h.idle.journal, h.idle.infeasible⟩,
    ⟨⟨⟨hl.proper, ?_, h.optimal.layered.objective, h.optimal.layered.artificial⟩, ?_, ?_, k, ?_⟩,
      h.optimal.settled⟩, h.weights⟩
  · exact fun b hbt => h.optimal.layered.rows b ((hb b).mp hbt)
  · exact fun b hbt => h.optimal.feasible b ((hb b).mp hbt)
  · exact fun σ => (hsolves σ).trans (h.optimal.models.solves σ)
  · exact fun σ hσ => hk σ ((hsolves σ).mp hσ)

/-- Adding a new constraint to a sound solver decides whether it contradicts the
required ones. -/
theorem Sound.decides_add (hs : s.Sound) (hc : s.hasConstraint c = false)
    (hpos : 0 ≤ c.strength.value) (limit : Nat) :
    Ensures (s.add limit c) (Decides s c) := by
  have hd := drafted_createRow hs.ledger hs.optimal.layered c
  have hv := fun t ht hz => contains_createRow hs.ledger (c := c) (t := t) ht hz
  refine ensures_add (fun hdup => ?_) (fun _ x hx => ?_) (fun _ hsub hdum => ?_)
    (fun _ hdum hz => ?_) (fun _ _ hdum hz => ?_)
  · simp [hc] at hdup
  · exact Drafted.decides_enter hs hc hd hv hpos (subject?_mem hx)
      (Drafted.hosts_subject hd hs hx) limit
  · exact Drafted.decides_installByProbe hs hc hd hv hpos hsub hdum limit
  · exact Drafted.decides_enter hs hc hd hv hpos (Or.inr (by simp [Tag.symbols]))
      (Drafted.hosts_dummy hd hs hdum hz) limit
  · refine Or.inr ⟨rfl, fun ν hνc hν => ?_⟩
    refine Drafted.contradicts hs hc hd hv (fun σ _ hlaw => ?_) hνc hν
    rw [eval_of_dummies hd.admits (tier_of_allDummies hdum) hlaw, ne_eq,
      ← Scalar.nearZero_iff, hz]
    simp

/-- Adding a constraint to a sound solver leaves it sound, and the constraint is
installed, a duplicate, or required and rejected. -/
theorem Sound.answers_add (hs : s.Sound) (hpos : 0 ≤ c.strength.value) (limit : Nat) :
    Ensures (s.add limit c) (fun p => p.1.Sound ∧
      ((p.2 = .ok () ∧ c ∈ p.1.constraints.keys) ∨ p.2 = .error .duplicateConstraint ∨
        (p.2 = .error .unsatisfiableConstraint ∧ c.strength.isRequired = true))) := by
  cases hc : s.hasConstraint c with
  | true =>
      refine ensures_add (fun _ => ⟨hs, Or.inr (Or.inl rfl)⟩) ?_ ?_ ?_ ?_
      all_goals
        intro hno
        simp [hc] at hno
  | false =>
      intro p hp
      rcases hs.decides_add hc hpos limit p hp with ⟨hok, hsound, hkeys⟩ | ⟨hreject, hcontra⟩
      · exact ⟨hsound, Or.inl ⟨hok, by simp [hkeys]⟩⟩
      · have hrequired := hs.isRequired_of_contradicts hcontra
        have hback := ensures_add_givesBack limit hs.idle hrequired
        exact ⟨hs.of_givesBack (hback p hp hreject) (hs.ledger.add limit c p hp).1,
          Or.inr (Or.inr ⟨hreject, hrequired⟩)⟩

/-- Adding a constraint does not break down, and leaves a sound solver sound. -/
theorem Sound.add (hs : s.Sound) (hpos : 0 ≤ c.strength.value) (limit : Nat) :
    Ensures (s.add limit c) (fun p => Calm AddError.internal p.2 ∧ p.1.Sound) := by
  refine (hs.answers_add hpos limit).mono ?_
  rintro ⟨u, answer⟩ ⟨hsound, ⟨rfl, -⟩ | rfl | ⟨rfl, -⟩⟩
  · exact ⟨calm_ok _, hsound⟩
  · exact ⟨calm_error (fun _ he => by cases he), hsound⟩
  · exact ⟨calm_error (fun _ he => by cases he), hsound⟩

end Rejecting

end Solver
end Tether
