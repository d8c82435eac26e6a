import Tether.Proofs.Exact.Solutions
import Tether.Proofs.Solver.LedgerRuns
import Tether.Proofs.Solver.Solving

/-!
# Where specks come from

A solver is sifted by some solves if its objectives have no speck and every speck of
a row was left there by one of these solves.  Whatever changes rows keeps that: a
symbol that enters brings in the specks of its own solve, and nothing else brings in
any.
-/

namespace Tether

open Simplex

namespace Solver

variable {α : Type} [Scalar α] {s u : Solver α} {E : List (Solve α)} {c : Constraint α}

/-- The objectives have no speck, and those of a row were left by solves for its
symbol. -/
structure Sifted (E : List (Solve α)) (s : Solver α) : Prop where
  objective : s.objective.specks = []
  artificial : ∀ r ∈ s.artificial, r.specks = []
  rows : ∀ b ∈ s.tableau.basics, ∀ c ∈ b.2.specks, Solve.Left E b.1 c

theorem sifted_empty (E : List (Solve α)) (settings : Settings α) :
    Sifted E (empty settings : Solver α) :=
  ⟨rfl, by simp [empty], by simp [empty, Tableau.empty, Tableau.basics]⟩

theorem Sifted.mono (h : Sifted E s) (l : List (Solve α)) : Sifted (E ++ l) s :=
  ⟨h.objective, h.artificial,
    fun b hb c hc => (h.rows b hb c hc).mono (fun _ he => List.mem_append_left l he)⟩

section Changes

/-- A change that brings specks into no row keeps a solver sifted. -/
theorem Sifted.of_subset (h : Sifted E s) (ho : u.objective.specks ⊆ s.objective.specks)
    (ha : ∀ r ∈ u.artificial, ∃ q ∈ s.artificial, r.specks ⊆ q.specks)
    (hr : ∀ b ∈ u.tableau.basics, ∃ r, (b.1, r) ∈ s.tableau.basics ∧ b.2.specks ⊆ r.specks) :
    Sifted E u where
  objective := List.subset_nil.mp (h.objective ▸ ho)
  artificial := by
    intro r hm
    obtain ⟨q, hq, hsub⟩ := ha r hm
    exact List.subset_nil.mp (h.artificial q hq ▸ hsub)
  rows := by
    intro b hb c hc
    obtain ⟨r, hm, hsub⟩ := hr b hb
    exact h.rows _ hm c (hsub hc)

/-- Being sifted is a matter of the rows, and not of the books. -/
theorem Sifted.of_rows (h : Sifted E s) (ht : u.tableau.basics = s.tableau.basics)
    (ho : u.objective = s.objective) (ha : u.artificial = s.artificial) : Sifted E u :=
  ⟨ho ▸ h.objective, ha ▸ h.artificial, ht ▸ h.rows⟩

theorem Sifted.dropRow (h : Sifted E s) (x : Symbol) : Sifted E (s.dropRow x) := by
  refine ⟨h.objective, h.artificial, ?_⟩
  rintro ⟨y, r⟩ hb
  obtain ⟨hk, hr⟩ := Tableau.mem_basics_iff.mp hb
  rw [Tableau.row?, rowAt?_dropRow] at hr
  split at hr
  · cases hr
  · exact h.rows (y, r) (Tableau.mem_basics_iff.mpr ⟨knows_dropRow.mp hk, hr⟩)

theorem Sifted.substitute (h : Sifted E s) (x : Symbol) (q : Row α) :
    Sifted E (s.substitute x q) := by
  refine h.of_subset (Row.specks_substitute_subset _ x q) ?_ ?_
  · intro r hr
    obtain ⟨r₀, hr₀, rfl⟩ := Option.map_eq_some_iff.mp hr
    exact ⟨r₀, hr₀, Row.specks_substitute_subset _ x q⟩
  · intro b hb
    obtain ⟨r, hr, he⟩ := mem_basics_substitute.mp hb
    exact ⟨r, hr, he ▸ Row.specks_substitute_subset _ x q⟩

theorem Sifted.dropArtificial (h : Sifted E s) (x : Symbol) : Sifted E (s.dropArtificial x) := by
  refine h.of_subset (Row.specks_erase_subset _ x) (fun r hr => ⟨r, hr, List.Subset.refl _⟩) ?_
  intro b hb
  obtain ⟨r, hr, he⟩ := mem_basics_dropArtificial.mp hb
  exact ⟨r, hr, he ▸ Row.specks_erase_subset _ x⟩

/-- A symbol that enters brings in the specks that its solve left. -/
theorem Sifted.enter (h : Sifted E s) {e : Solve α} (hx : s.tableau.Knows e.symbol) :
    Sifted (E ++ [e]) (s.enter e.symbol e.result) := by
  have hs := (h.substitute e.symbol e.result).mono [e]
  refine ⟨hs.objective, hs.artificial, ?_⟩
  intro b hb
  rcases (mem_basics_enter hx).mp hb with rfl | ⟨-, hb⟩
  · exact fun c hc => ⟨e, by simp, rfl, hc⟩
  · exact hs.rows b (mem_basics_substitute.mpr hb)

end Changes

section Drafting

/-- Making symbols and variables keeps a solver sifted. -/
theorem Drafts.sifted (hd : Drafts s u) (h : Sifted E s)
    (ho : u.objective.specks ⊆ s.objective.specks) : Sifted E u :=
  h.of_subset ho (fun q hq => ⟨q, hd.artificial ▸ hq, List.Subset.refl _⟩)
    (fun b hb => ⟨b.2, hd.tableau.mem_basics_iff.mp hb, List.Subset.refl _⟩)

theorem specks_addTerm_subset (draft : Row α × Solver α) (t : Term α) :
    (addTerm draft t).1.specks ⊆ draft.1.specks := by
  unfold addTerm
  split
  · exact List.Subset.refl _
  · dsimp only
    split
    · exact Row.specks_addRow_subset _ _ _
    · exact Row.specks_insert_subset _ _ _

theorem specks_addTerms (s : Solver α) (c : Constraint α) : (s.addTerms c).1.specks = [] :=
  List.foldlRecOn (motive := fun draft : Row α × Solver α => draft.1.specks = [])
    c.expression.terms addTerm rfl
    (fun draft hd t _ => List.subset_nil.mp (hd ▸ specks_addTerm_subset draft t))

/-- The symbols of a constraint bring in no specks, neither into its row nor into the
objective. -/
theorem specks_addMarkers_subset (r : Row α) (s : Solver α) (c : Constraint α) :
    (addMarkers r s c).1.specks ⊆ r.specks ∧
      (addMarkers r s c).2.2.objective.specks ⊆ s.objective.specks := by
  have hslack : ∀ x, (addSlack r s c.strength x).1.specks ⊆ r.specks ∧
      (addSlack r s c.strength x).2.2.objective.specks ⊆ s.objective.specks := by
    intro x
    unfold addSlack
    dsimp only
    split
    · exact ⟨Row.specks_insert_subset _ _ _, List.Subset.refl _⟩
    · exact ⟨List.Subset.trans (Row.specks_insert_subset _ _ _) (Row.specks_insert_subset _ _ _),
        Row.specks_insert_subset _ _ _⟩
  unfold addMarkers
  split
  · exact hslack _
  · exact hslack _
  · unfold addErrors
    split
    · exact ⟨Row.specks_insert_subset _ _ _, List.Subset.refl _⟩
    · exact ⟨List.Subset.trans (Row.specks_insert_subset _ _ _) (Row.specks_insert_subset _ _ _),
        List.Subset.trans (Row.specks_insert_subset _ _ _) (Row.specks_insert_subset _ _ _)⟩

theorem Sifted.createRow (h : Sifted E s) (c : Constraint α) : Sifted E (s.createRow c).2.2 := by
  refine (s.drafts_createRow c).sifted h ?_
  have ho : (s.addTerms c).2.objective = s.objective :=
    objective_foldl_addTerm c.expression.terms _
  exact ho ▸ (specks_addMarkers_subset (s.addTerms c).1 (s.addTerms c).2 c).2

variable [EvenTolerance α]

/-- The row of a new constraint has no speck. -/
theorem specks_createRow (s : Solver α) (c : Constraint α) : (s.createRow c).1.specks = [] := by
  have hmarkers : (addMarkers (s.addTerms c).1 (s.addTerms c).2 c).1.specks = [] :=
    List.subset_nil.mp (specks_addTerms s c ▸ (specks_addMarkers_subset _ _ c).1)
  rw [createRow_eq]
  dsimp only
  split
  · exact Row.specks_negate_eq_nil hmarkers
  · exact hmarkers

end Drafting

section Taking

theorem Sifted.removeWeights (h : Sifted E s) (c : Constraint α) (tag : Tag) :
    Sifted E (s.removeWeights c tag) := by
  refine List.foldlRecOn tag.symbols (removeWeight c.strength.value) h (fun u hu x _ => ?_)
  have hobjective : ∀ o : Row α, o.specks ⊆ u.objective.specks →
      Sifted E { u with objective := o } := fun o ho =>
    ⟨List.subset_nil.mp (hu.objective ▸ ho), hu.artificial, hu.rows⟩
  unfold removeWeight
  split
  · exact hu
  · split
    · exact hobjective _ (Row.specks_addRow_subset _ _ _)
    · exact hobjective _ (Row.specks_insert_subset _ _ _)

/-- What follows the removal of a marker drops rows only. -/
theorem Sifted.uninstall {tag : Tag}
    (h : Sifted E ((s.removeWeights c tag).removeMarker tag.marker)) :
    Sifted E (s.uninstall c tag) := by
  refine releaseVariables_induction ?_ (fun _ _ hu => hu.of_rows rfl rfl rfl)
    (fun _ _ x hu => (hu.dropRow x).of_rows rfl rfl rfl) c
  cases tag.other with
  | none => exact h.of_rows rfl rfl rfl
  | some x => exact (h.dropRow x).of_rows rfl rfl rfl

end Taking

section Moving

theorem RowsMoved.sifted (hm : RowsMoved s u) (h : Sifted E s)
    (hk : ∀ id, u.tableau.kindAt? id = s.tableau.kindAt? id)
    (ho : u.objective = s.objective) (ha : u.artificial = s.artificial) : Sifted E u := by
  refine h.of_subset (ho ▸ List.Subset.refl _) (fun q hq => ⟨q, ha ▸ hq, List.Subset.refl _⟩) ?_
  rintro ⟨x, r⟩ hb
  obtain ⟨hx, hr⟩ := Tableau.mem_basics_iff.mp hb
  have hx : s.tableau.Knows x := (hk x.id).symm.trans hx
  rcases hm x.id with he | ⟨d, he⟩
  · exact ⟨r, Tableau.mem_basics_iff.mpr ⟨hx, he.symm.trans hr⟩, List.Subset.refl _⟩
  · rw [Tableau.row?, he] at hr
    obtain ⟨q, hq, rfl⟩ := Option.map_eq_some_iff.mp hr
    exact ⟨q, Tableau.mem_basics_iff.mpr ⟨hx, hq⟩, List.Subset.refl _⟩

/-- A suggestion changes constants only. -/
theorem Sifted.shiftEdit (h : Sifted E s) (tag : Tag) (delta : α) :
    Sifted E (s.shiftEdit tag delta) := by
  have hrow : ∀ x d, Sifted E (s.shiftRow x d) := fun x d =>
    (rowsMoved_shiftRow s x d).sifted h (kindAt?_shiftRow s x d) (objective_shiftRow s x d)
      (artificial_shiftRow s x d)
  unfold Solver.shiftEdit
  split
  · exact hrow _ _
  · split
    · exact hrow _ _
    · exact (rowsMoved_shiftMentioning s tag.marker delta).sifted h
        (fun id => kindAt?_modifyMentioning s _ _ id) rfl rfl

end Moving

end Solver
end Tether
