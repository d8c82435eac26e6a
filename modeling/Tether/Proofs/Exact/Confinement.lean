import Tether.Proofs.Exact.Absence
import Tether.Proofs.Exact.Undertaking

/-!
# Variables stay out of restricted rows

A variable may have any value, so nothing that is kept from being negative may be
measured by it: the rows of slacks, errors and dummies and the rows that are lowered
speak of restricted symbols alone.  This is what the tiers of symbols come to, and every
state that a loop visits keeps to them.

A marker whose row is that of a variable is the one symbol that is replaced by a row
with variables in it.  It gives way last, when no restricted row depends on it.  An
objective without the weights of the constraint depends on the errors of the other
constraints alone, and those that are basic have restricted rows, so it does not depend
on the marker either, and the replacement meets rows of variables only.
-/

namespace Tether

open Simplex

/-- A row below the highest tier mentions no variable. -/
theorem Simplex.Row.Within.isExternal_eq_false {r : Row Rat} {n : Nat}
    (h : r.Within n) (hn : n < 2) {c : Cell Rat} (hc : c ∈ r.cells) :
    c.1.isExternal = false := by
  have ht := h.tiers c.1 (Row.mem_symbols_iff.mpr ⟨c.2, hc⟩)
  exact Symbol.isExternal_eq_false_iff.mpr (by omega)

namespace Solver

section Confined

/-- Neither the row of a slack, an error or a dummy nor a row that is lowered mentions a
variable. -/
structure Confined {α : Type} (s : Solver α) : Prop where
  rows : ∀ b ∈ s.tableau.basics, b.1.isExternal = false →
    ∀ c ∈ b.2.cells, c.1.isExternal = false
  objective : ∀ c ∈ s.objective.cells, c.1.isExternal = false
  artificial : ∀ r ∈ s.artificial, ∀ c ∈ r.cells, c.1.isExternal = false

variable {s : Solver Rat}

theorem Layered.confined (h : s.Layered) : s.Confined where
  rows := by
    intro b hb hx c hc
    have hle := b.1.tier_le_two
    have hne := Symbol.isExternal_eq_false_iff.mp hx
    exact (h.rows b hb).isExternal_eq_false (by omega) hc
  objective := fun c hc => h.objective.isExternal_eq_false (by omega) hc
  artificial := fun r hr c hc => (h.artificial r hr).isExternal_eq_false (by omega) hc

end Confined

section Relieved

variable {s w : Solver Rat} {c installed : Constraint Rat} {tag : Tag} {leaving : Symbol}
  {r : Row Rat}

/-- The solver during the removal of a constraint: the weights of the constraint are out of
the objective, and its marker is still to be freed. -/
def relievedOf {α : Type} [Scalar α] (s : Solver α) (c installed : Constraint α) (tag : Tag) :
    Solver α :=
  removeWeights { s with constraints := s.constraints.erase c } installed tag

/-- Before its marker is freed, the equation of a constraint is still in the tableau, but
the objective depends on the other constraints alone. -/
structure Relieved (s : Solver Rat) (tag : Tag) (w : Solver Rat) : Prop where
  layered : w.Layered
  feasible : w.Feasible
  tableau : w.tableau = s.tableau
  artificial : w.artificial = none
  knows : w.tableau.Knows tag.marker
  disregards : w.Disregards tag.marker

theorem Sound.relieved (h : s.Sound) (hf : s.constraints.find? c = some (installed, tag)) :
    Relieved s tag (s.relievedOf c installed tag) := by
  obtain ⟨before, after, he, -⟩ := OrderedMap.exists_append_of_find? hf
  have hperm : (demands s.edits s.constraints.entries).Perm
      ((installed.current s.edits, tag) :: demands s.edits (before ++ after)) := by
    rw [he]
    exact List.Perm.map _ List.perm_middle
  have hstart : Standing { s with constraints := s.constraints.erase c }
      ((installed.current s.edits, tag) :: demands s.edits (before ++ after)) :=
    Standing.congr ⟨h.optimal.layered, h.optimal.feasible, h.optimal.models.perm hperm⟩
      rfl rfl rfl rfl rfl
  have hwired := (h.ledger.tagged.wired s.edits).perm hperm
  have hknows := h.ledger.tagged.knows _ (OrderedMap.mem_of_find? hf).1
  have hlight := hstart.layered.removeWeights hknows installed
  have hpenalty := hstart.penalty_removeWeights (d := installed) hwired
    (Constraint.strength_current installed s.edits).symm
  refine ⟨hlight.layered, ?_, hlight.tableau, hlight.artificial.trans h.idle.artificial, ?_, ?_⟩
  · intro b hb
    rw [relievedOf, hlight.tableau] at hb
    exact h.optimal.feasible b hb
  · rw [relievedOf, hlight.tableau]
    exact hknows tag.marker (by simp [Tag.symbols])
  · refine disregards_of_penalty (c := installed.current s.edits) ?_ hpenalty
    rw [relievedOf, hlight.tableau]
    exact hwired

/-- Whichever row gives way, variables stay out of restricted rows. -/
theorem Relieved.confined_removeMarker (h : Relieved s tag w) :
    (w.removeMarker tag.marker).Confined :=
  (h.layered.removeMarker h.feasible h.knows h.artificial h.disregards).layered.confined

/-- If the row of a variable gives way to a marker, then neither a restricted row nor the
objective mentions the marker. -/
theorem Relieved.notMem_of_isExternal (h : Relieved s tag w)
    (hrow : withRow w.tableau (markerLeaving? w.tableau tag.marker) = some (leaving, r))
    (hl : leaving.isExternal = true) :
    (∀ b ∈ w.tableau.basics, b.1.isExternal = false → tag.marker ∉ b.2.symbols) ∧
      tag.marker ∉ w.objective.symbols := by
  have ht := Symbol.isExternal_iff.mp hl
  have hext : ∀ b ∈ w.tableau.basics, b.2.coefficient tag.marker ≠ 0 → b.1.tier = 2 := by
    rcases (yields_of_markerLeaving? hrow).2.2 with h0 | ⟨h1, -⟩ | ⟨-, hext⟩
    · omega
    · omega
    · exact hext
  refine ⟨fun b hb hx hm => ?_, h.layered.notMem_objective h.disregards hext⟩
  have hc := (h.layered.rows b hb).reduced.coefficient_ne_zero hm
  exact Symbol.isExternal_eq_false_iff.mp hx (hext b hb hc)

/-- A row that does not mention the marker is not changed when another one gives way to
it. -/
theorem mem_basics_yielded {t : Solver Rat} {marker : Symbol} {q : Row Rat} {b : Symbol × Row Rat}
    (hk : t.tableau.Knows leaving) (hne : b.1 ≠ leaving)
    (hb : ∀ p, (b.1, p) ∈ t.tableau.basics → marker ∉ p.symbols) :
    b ∈ ((t.dropRow leaving).substitute marker q).tableau.basics ↔ b ∈ t.tableau.basics := by
  rw [mem_basics_substitute]
  constructor
  · rintro ⟨p, hp, he⟩
    have hp := ((mem_basics_dropRow hk).mp hp).1
    rw [Row.substitute_of_notMem (hb p hp)] at he
    rw [← he] at hp
    exact hp
  · intro hm
    exact ⟨b.2, (mem_basics_dropRow hk).mpr ⟨hm, hne⟩,
      (Row.substitute_of_notMem (hb b.2 hm) q).symm⟩

/-- If the row of a variable gives way, then the restricted rows and the objective stay as
they are. -/
theorem Relieved.removeMarker_of_isExternal (h : Relieved s tag w)
    (hbasic : w.tableau.isBasic tag.marker = false)
    (hrow : withRow w.tableau (markerLeaving? w.tableau tag.marker) = some (leaving, r))
    (hl : leaving.isExternal = true) :
    (w.removeMarker tag.marker).objective = w.objective ∧
      ∀ b : Symbol × Row Rat, b.1.isExternal = false →
        (b ∈ (w.removeMarker tag.marker).tableau.basics ↔ b ∈ w.tableau.basics) := by
  obtain ⟨hrows, hobjective⟩ := h.notMem_of_isExternal hrow hl
  obtain ⟨hmem, -, -⟩ := yields_of_markerLeaving? hrow
  have he : w.removeMarker tag.marker =
      (w.dropRow leaving).substitute tag.marker (r.exchange leaving tag.marker) := by
    rw [Solver.removeMarker, hbasic, if_neg Bool.false_ne_true, hrow]
  rw [he]
  refine ⟨Row.substitute_of_notMem hobjective _, fun b hb => ?_⟩
  refine mem_basics_yielded (Tableau.mem_basics_iff.mp hmem).1 ?_ (fun p hp => hrows _ hp hb)
  intro hbl
  rw [hbl, hl] at hb
  cases hb

end Relieved

section Runs

variable {s : Solver Rat} {answers : List (SolverAnswer Rat)}
  {calls : List (SolverCall Rat)}

/-- After every run no row of a slack, an error or a dummy and not the objective mentions a
variable, and so it is in every state that a loop of a further call visits.  The same holds
all through a removal.  If the row of a variable gives way to the marker of the removed
constraint, then no restricted row and not the objective mentions the marker, and they all
stay as they are. -/
theorem variables_stay_out_of_restricted_rows (settings : Settings Rat) (limit : Nat)
    (hw : ∀ call ∈ calls, call.Weighted)
    (hrun : (empty settings).run limit calls = .ok (s, answers)) :
    s.Confined ∧
    (∀ call : SolverCall Rat, call.Weighted → ∀ loop start t, Undertakes s call loop start →
      Visits loop.step start t → t.Confined) ∧
    ∀ c installed tag, s.constraints.find? c = some (installed, tag) →
      ∀ w, w = s.relievedOf c installed tag →
        w.Confined ∧ (w.removeMarker tag.marker).Confined ∧
        ∀ leaving r, w.tableau.isBasic tag.marker = false →
          withRow w.tableau (markerLeaving? w.tableau tag.marker) = some (leaving, r) →
          leaving.isExternal = true →
            (∀ b ∈ w.tableau.basics, b.1.isExternal = false → tag.marker ∉ b.2.symbols) ∧
            tag.marker ∉ w.objective.symbols ∧
            (w.removeMarker tag.marker).objective = w.objective ∧
            ∀ b : Symbol × Row Rat, b.1.isExternal = false →
              (b ∈ (w.removeMarker tag.marker).tableau.basics ↔ b ∈ w.tableau.basics) := by
  have hs : s.Sound := sound_run settings limit hw _ hrun
  refine ⟨hs.optimal.layered.confined, fun call hcall loop start t hstart ht => ?_,
    fun c installed tag hf w he => ?_⟩
  · exact ((hs.proceeds_of_undertakes hcall hstart).visits ht).layered.confined
  · have hrelieved : Relieved s tag w := he ▸ hs.relieved hf
    refine ⟨hrelieved.layered.confined, hrelieved.confined_removeMarker,
      fun leaving r hbasic hrow hl => ?_⟩
    obtain ⟨hrows, hobjective⟩ := hrelieved.notMem_of_isExternal hrow hl
    exact ⟨hrows, hobjective, hrelieved.removeMarker_of_isExternal hbasic hrow hl⟩

/-- A height follows a width.  When the wish for the width is removed, the row of the width
gives way and the row of the height takes on the variable: only a row of a variable does. -/
theorem follower_takes_on_variable :
    ∃ (s w : Solver Rat) (answers : List (SolverAnswer Rat)) (five installed : Constraint Rat)
      (tag : Tag) (leaving : Symbol) (r : Row Rat),
      five = ⟨"five", ⟨[.symbolic ⟨.entity ⟨0⟩, .width⟩ 1], -5⟩, .equalTo, .weak⟩ ∧
      (empty .standard).run 9 [.add five, .add ⟨"follow",
        ⟨[.symbolic ⟨.entity ⟨0⟩, .height⟩ 1, .symbolic ⟨.entity ⟨0⟩, .width⟩ (-1)], 0⟩,
        .equalTo, .strong⟩] = .ok (s, answers) ∧
      s.constraints.find? five = some (installed, tag) ∧ w = s.relievedOf five installed tag ∧
      withRow w.tableau (markerLeaving? w.tableau tag.marker) = some (leaving, r) ∧
      leaving.isExternal = true ∧ s.Confined ∧ (w.removeMarker tag.marker).Confined ∧
      (w.removeMarker tag.marker).objective = w.objective ∧
      ∃ b ∈ (w.removeMarker tag.marker).tableau.basics, ∃ c ∈ b.2.cells,
        c.1.isExternal = true := by
  have hchain : ((empty .standard : Solver Rat).run 9 [
      .add ⟨"five", ⟨[.symbolic ⟨.entity ⟨0⟩, .width⟩ 1], -5⟩, .equalTo, .weak⟩,
      .add ⟨"follow", ⟨[.symbolic ⟨.entity ⟨0⟩, .height⟩ 1,
        .symbolic ⟨.entity ⟨0⟩, .width⟩ (-1)], 0⟩, .equalTo, .strong⟩]).toOption.any (fun p =>
      (p.1.constraints.find? ⟨"five", ⟨[.symbolic ⟨.entity ⟨0⟩, .width⟩ 1], -5⟩, .equalTo,
        .weak⟩).any (fun e =>
          let w := p.1.relievedOf ⟨"five", ⟨[.symbolic ⟨.entity ⟨0⟩, .width⟩ 1], -5⟩, .equalTo,
            .weak⟩ e.1 e.2
          !w.tableau.isBasic e.2.marker &&
          (withRow w.tableau (markerLeaving? w.tableau e.2.marker)).any
            (fun b => b.1.isExternal) &&
          (w.removeMarker e.2.marker).tableau.basics.any
            (fun b => b.2.cells.any (fun c => c.1.isExternal)))) = true := by
    decide +kernel
  obtain ⟨⟨s, answers⟩, hrun, hrest⟩ := exists_ok_of_any hchain
  obtain ⟨⟨installed, tag⟩, hf, hrest⟩ := (Option.any_eq_true _ _).mp hrest
  simp only [Bool.and_eq_true, Bool.not_eq_true', List.any_eq_true] at hrest
  obtain ⟨⟨hbasic, hrow⟩, hcell⟩ := hrest
  obtain ⟨⟨leaving, r⟩, hrow, hl⟩ := (Option.any_eq_true _ _).mp hrow
  obtain ⟨hconfined, -, hremoval⟩ :=
    variables_stay_out_of_restricted_rows .standard 9 (by decide +kernel) hrun
  obtain ⟨-, hfreed, hthird⟩ := hremoval _ _ _ hf _ rfl
  obtain ⟨-, -, hobjective, -⟩ := hthird leaving r hbasic hrow hl
  exact ⟨s, _, answers, _, installed, tag, leaving, r, rfl, hrun, hf, rfl, hrow, hl, hconfined,
    hfreed, hobjective, hcell⟩

end Runs

end Solver
end Tether
