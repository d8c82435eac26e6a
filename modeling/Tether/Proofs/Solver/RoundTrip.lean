import Tether.Proofs.Solver.Effects
import Tether.Proofs.Solver.References

/-!
# Adding and removing again

A constraint that is added and then removed leaves the books as they were.  It comes last
on the list and goes from there, it held no edit variable, and the variables that it
brought are forgotten when its references are taken back.

The counts of references need no comparison of the one call with the other: before and
after, they are what the installed constraints demand.  The rest of what is known about
variables, their symbols and the values last handed out, is listed apart from the counts.
Counting leaves that listing alone, an addition lengthens it, a removal takes entries out,
and which ones are left is decided by the constraints again.
-/

namespace Tether

open Simplex

section Sublists

variable {κ β : Type} {l new rest : List (κ × β)}

/-- If what is left of a list and of what was put behind it has the keys of the list, then
just what was put behind it is gone. -/
theorem eq_of_sublist_append (hkeys : ((l ++ new).map (·.1)).Nodup)
    (hrest : rest.Sublist (l ++ new)) (hsame : ∀ k, k ∈ rest.map (·.1) ↔ k ∈ l.map (·.1)) :
    rest = l := by
  obtain ⟨old, added, rfl, hold, hadded⟩ := List.sublist_append_iff.mp hrest
  rw [List.map_append] at hkeys
  obtain ⟨hnodup, -, hdisjoint⟩ := List.nodup_append'.mp hkeys
  have hnone : added = [] := by
    refine List.eq_nil_iff_forall_not_mem.mpr (fun e he => ?_)
    have hkey : e.1 ∈ (old ++ added).map (·.1) :=
      List.mem_map_of_mem (List.mem_append_right old he)
    exact hdisjoint ((hsame e.1).mp hkey) (List.mem_map_of_mem (hadded.subset he))
  subst hnone
  rw [List.append_nil] at hsame ⊢
  refine hold.eq_of_length_le ?_
  have hsub : l.map (·.1) ⊆ old.map (·.1) := fun k hk => (hsame k).mpr hk
  simpa using (List.subperm_of_subset hnodup hsub).length_le

end Sublists

namespace Solver

variable {α : Type} {s u w : Solver α} {limit limit' : Nat} {c : Constraint α}

section Listing

/-- What is known about variables beside the counts of their references. -/
def listing (m : OrderedMap Variable (VariableEntry α)) :
    List (Variable × Symbol × Option α) :=
  m.entries.map (fun e => (e.1, e.2.symbol, e.2.reported))

theorem map_fst_listing (m : OrderedMap Variable (VariableEntry α)) :
    (listing m).map (·.1) = m.keys := by
  simp [listing, OrderedMap.keys, Function.comp_def]

/-- Maps that count the same demand are equal if they list the same variables. -/
theorem eq_of_listing {t t' : Tableau α}
    {m m' : OrderedMap Variable (VariableEntry α)} {demand : Variable → Nat}
    (h : Counted t m demand) (h' : Counted t' m' demand) (hlist : listing m = listing m') :
    m = m' := by
  have hentries : ∀ {t : Tableau α} {m : OrderedMap Variable (VariableEntry α)},
      Counted t m demand →
        m.entries = (listing m).map (fun e => (e.1, ⟨e.2.1, e.2.2, demand e.1⟩)) := by
    intro t m h
    rw [listing, List.map_map]
    refine (List.map_id m.entries).symm.trans (List.map_congr_left (fun e he => ?_))
    rw [Function.comp_apply, ← h.references e he]
    rfl
  refine congrArg OrderedMap.mk ?_
  rw [hentries h, hentries h', hlist]

variable [Scalar α]

theorem listing_countReference (f : Nat → Nat) (m : OrderedMap Variable (VariableEntry α))
    (t : Term α) : listing (countReference f m t) = listing m := by
  unfold countReference
  split
  · rfl
  · refine OrderedMap.map_entries_modify (g := fun entry : VariableEntry α =>
      (entry.symbol, entry.reported)) ?_ m t.unknown
    exact fun _ => rfl

theorem listing_retainVariables (s : Solver α) (c : Constraint α) :
    listing (s.retainVariables c).unknowns = listing s.unknowns :=
  retainVariables_induction (motive := fun m => listing m = listing s.unknowns) rfl
    (fun m t hm => (listing_countReference _ m t).trans hm) c

/-- Taking references back lists no other variables. -/
theorem listing_releaseVariables_sublist (s : Solver α) (c : Constraint α) :
    (listing (s.releaseVariables c).unknowns).Sublist (listing s.unknowns) := by
  refine releaseVariables_induction (motive := fun u => (listing u.unknowns).Sublist
    (listing s.unknowns)) (.refl _) (fun u t hu => ?_) (fun u t _ hu => ?_) c
  · show (listing (countReference (· - 1) u.unknowns t)).Sublist _
    rwa [listing_countReference]
  · refine List.Sublist.trans (List.eraseP_sublist.map _) ?_
    show (listing (countReference (· - 1) u.unknowns t)).Sublist _
    rwa [listing_countReference]

end Listing

variable [Scalar α]

section Calls

/-- An addition that is done lists the variables of before and, behind them, those it
makes. -/
theorem listing_of_done_add (hadd : s.perform limit (.add c) = .ok (u, .done)) :
    listing s.unknowns <+: listing u.unknowns := by
  have haccession := (ensures_accession s limit c _ (ok_of_answer hadd)).1
  cases haccession with
  | installed _ _ hunknowns _ =>
      rw [hunknowns, listing_retainVariables]
      exact (s.drafts_createRow c).unknowns.map (fun e => (e.1, e.2.symbol, e.2.reported))

/-- A removal lists no other variables. -/
theorem Ledger.listing_remove (h : s.Ledger) (limit : Nat) (c : Constraint α) :
    Ensures (s.remove limit c)
      (fun p => (listing p.1.unknowns).Sublist (listing s.unknowns)) := by
  refine (ensures_departure h limit c).mono ?_
  rintro p ⟨hdeparture, -⟩
  cases hdeparture with
  | unknown _ hunknowns => rw [hunknowns]
  | @removed installed tag hf _ hunknowns =>
      have hsub := listing_releaseVariables_sublist
        (detach { s with constraints := s.constraints.erase c } installed tag) installed
      rw [(h.books_detach hf).2.2] at hsub
      rwa [hunknowns]

/-- Where unused variables are collected, the known ones are those in use. -/
theorem Ledger.hasVariable_iff (h : s.Ledger) (ht : s.Tidy)
    (hcollect : s.settings.collectUnused = true) {v : Variable} :
    s.hasVariable v = true ↔ 0 < s.uses v :=
  ⟨ht hcollect v, h.counted.demanded v⟩

/-- What is last on the list of constraints and of a content of its own is what erasing
that content takes out. -/
theorem erase_of_append {m m' : OrderedMap (Constraint α) Tag} {tag : Tag}
    (hnew : m.contains c = false) (hlast : m'.entries = m.entries ++ [(c, tag)]) :
    m'.erase c = m := by
  refine congrArg OrderedMap.mk ?_
  rw [hlast, List.eraseP_append_right]
  · rw [List.eraseP_cons, Constraint.beq_refl, cond_true, List.append_nil]
  · exact List.any_eq_false.mp hnew

/-- A constraint that is not installed holds no edit variable. -/
theorem Held.filter_eq_self {edits : OrderedMap Variable (Edit α)}
    (h : Held edits s.constraints.entries) (hnew : s.hasConstraint c = false) :
    edits.filter (fun _ edit => !(edit.constraint == c)) = edits := by
  refine congrArg OrderedMap.mk (List.filter_eq_self.mpr (fun e he => ?_))
  simpa using List.any_eq_false.mp hnew _ (h.installed e he)

end Calls

section Returning

variable (hs : s.Ledger) (ht : s.Tidy) (hnew : s.hasConstraint c = false)
  (hadd : s.perform limit (.add c) = .ok (u, .done))
  (hremove : u.perform limit' (.remove c) = .ok (w, .done))
include hs hnew hadd hremove

/-- A constraint that is added and removed leaves the list and the edit variables as they
were. -/
theorem Ledger.constraints_of_return :
    w.Ledger ∧ w.constraints = s.constraints ∧ w.edits = s.edits := by
  obtain ⟨hu, -, hedits, hadded⟩ := hs.add limit c _ (ok_of_answer hadd)
  obtain ⟨tag, hentries⟩ := hadded rfl
  obtain ⟨hw, -, hconstraints, hfiltered⟩ := hu.done_remove hremove
  refine ⟨hw, hconstraints.trans (erase_of_append hnew hentries), ?_⟩
  rw [hfiltered, hedits]
  exact Held.filter_eq_self hs.held hnew

include ht

/-- And it leaves the known variables as they were, if unused ones are collected. -/
theorem Ledger.unknowns_of_return (hcollect : s.settings.collectUnused = true) :
    w.unknowns = s.unknowns := by
  obtain ⟨hw, hconstraints, -⟩ := hs.constraints_of_return hnew hadd hremove
  have hu := (hs.done_add hadd).1
  have hok := ok_of_answer hadd
  have hok' := ok_of_answer hremove
  have huses := uses_eq_of_constraints hconstraints
  have hsettings : w.settings = s.settings :=
    (ensures_departure hu limit' c _ hok').2.trans (ensures_accession s limit c _ hok).2
  have hut : u.Tidy := ht.add limit c _ hok (calm_ok _)
  have hwt : w.Tidy := hut.remove hu limit' c _ hok'
  have hkeys : ∀ v, v ∈ w.unknowns.keys ↔ v ∈ s.unknowns.keys := by
    intro v
    rw [← OrderedMap.contains_iff_mem_keys, ← OrderedMap.contains_iff_mem_keys]
    refine (hw.hasVariable_iff hwt (hsettings ▸ hcollect)).trans ?_
    rw [huses]
    exact (hs.hasVariable_iff ht hcollect).symm
  obtain ⟨new, hlisted⟩ := listing_of_done_add hadd
  refine eq_of_listing (huses ▸ hw.counted) hs.counted ?_
  have hnodup : ((listing s.unknowns ++ new).map (·.1)).Nodup := by
    rw [hlisted, map_fst_listing]
    exact hu.counted.keys
  refine eq_of_sublist_append hnodup ?_ ?_
  · rw [hlisted]
    exact hu.listing_remove limit' c _ hok'
  · intro v
    rw [map_fst_listing, map_fst_listing]
    exact hkeys v

end Returning

/-- After a run without breakdowns in which unused variables are collected, adding and
removing a constraint leaves the books as they were. -/
theorem books_of_return (settings : Settings α) {calls : List (SolverCall α)}
    {answers : List (SolverAnswer α)} {limit₁ limit₂ : Nat}
    (hcollect : settings.collectUnused = true)
    (hrun : (empty settings).run limit calls = .ok (s, answers))
    (hcalm : ∀ a ∈ answers, a.isInternal = false) (hnew : s.hasConstraint c = false)
    (hadd : s.perform limit₁ (.add c) = .ok (u, .done))
    (hremove : u.perform limit₂ (.remove c) = .ok (w, .done)) :
    w.constraints = s.constraints ∧ w.edits = s.edits ∧ w.unknowns = s.unknowns := by
  have hs : s.Ledger := ledger_run settings limit calls _ hrun
  have ht : s.Tidy := tidy_run settings limit calls _ hrun hcalm
  have hsettings : s.settings = settings := settings_run settings limit calls _ hrun
  obtain ⟨-, hconstraints, hedits⟩ := hs.constraints_of_return hnew hadd hremove
  exact ⟨hconstraints, hedits,
    hs.unknowns_of_return ht hnew hadd hremove (hsettings ▸ hcollect)⟩

end Solver
end Tether
