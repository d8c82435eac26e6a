import Tether.Proofs.Solver.Stability

/-!
# What calls do to the known variables

An addition makes variables and counts references, unless it is rejected: then the
variables are those of before.  A removal takes references back and forgets
variables.  No other call that changes rows looks at the variables.

What making a variable, counting a reference and forgetting a variable keep is
therefore kept by every call but a flush.
-/

namespace Tether
namespace Solver

open Simplex

variable {α : Type} [Scalar α] {s : Solver α} {c : Constraint α} {limit : Nat}

section Adding

/-- Optimizing again works on rows only, and if it fails, it has broken down. -/
theorem ensures_reoptimize_books {ε : Type} (s : Solver α) (limit : Nat)
    (internal : String → ε) :
    Ensures (reoptimize limit internal s) (fun p => p.1.books = s.books ∧
      ∀ why, p.2 = .error why → ∃ text, why = internal text) := by
  refine ensures_reoptimize (((rowStable_books s).optimize rfl .primary limit).mono ?_)
  rintro p hp
  refine ⟨fun _ => ⟨hp, fun why hwhy => by cases hwhy⟩, fun why _ => ⟨hp, ?_⟩⟩
  exact fun why' hwhy' => ⟨_, (Except.error.inj hwhy').symm⟩

/-- What an addition leaves of the constraints and the variables: those of before, or
the new constraint with its variables counted, or, if it breaks down early, the
variables that have been made for it. -/
inductive Accession (s : Solver α) (c : Constraint α) :
    Solver α × Except AddError Unit → Prop
  | refused {u why} (hconstraints : u.constraints = s.constraints)
      (hunknowns : u.unknowns = s.unknowns)
      (hwhy : why = .duplicateConstraint → s.hasConstraint c = true) :
      Accession s c (u, .error why)
  | installed {u answer tag} (hnew : s.hasConstraint c = false)
      (hconstraints : u.constraints = s.constraints.insert c tag)
      (hunknowns : u.unknowns = ((s.createRow c).2.2.retainVariables c).unknowns)
      (hanswer : ∀ why, answer = .error why → ∃ text, why = .internal text) :
      Accession s c (u, answer)
  | broken {u text} (hconstraints : u.constraints = s.constraints)
      (hunknowns : u.unknowns = (s.createRow c).2.2.unknowns) :
      Accession s c (u, .error (.internal text))

theorem ensures_accession (s : Solver α) (limit : Nat) (c : Constraint α) :
    Ensures (s.add limit c) (fun p => Accession s c p ∧ p.1.settings = s.settings) := by
  have hd := s.drafts_createRow c
  have hinstall : s.hasConstraint c = false → ∀ u : Solver α,
      u.books = (s.createRow c).2.2.books → Ensures (install limit u c (s.createRow c).2.1)
        (fun p => Accession s c p ∧ p.1.settings = s.settings) := by
    intro hc u hu
    refine (ensures_reoptimize_books (u.enlist c (s.createRow c).2.1) limit _).mono ?_
    rintro ⟨w, answer⟩ ⟨hw, hanswer⟩
    simp only [books, Prod.mk.injEq] at hu hw
    have hlist : w.constraints = s.constraints.insert c (s.createRow c).2.1 := by
      rw [← hd.constraints, ← hu.2.1]
      exact hw.2.1
    refine ⟨.installed hc hlist (hw.2.2.1.trans ?_) hanswer,
      hw.1.trans (hu.1.trans hd.settings)⟩
    simp only [Solver.enlist, retainVariables, hu.2.2.1]
  have henter : s.hasConstraint c = false → ∀ x r,
      Ensures (install limit ((s.createRow c).2.2.enter x r) c (s.createRow c).2.1)
        (fun p => Accession s c p ∧ p.1.settings = s.settings) :=
    fun hc x r => hinstall hc _ ((rowStable_books _).enter _ x r rfl)
  have hne : AddError.unsatisfiableConstraint = .duplicateConstraint →
      s.hasConstraint c = true := by
    intro h
    cases h
  refine ensures_add (fun hc => ⟨.refused rfl rfl (fun _ => hc), rfl⟩)
    (fun hc _ _ => henter hc _ _) ?_ (fun hc _ _ => henter hc _ _)
    (fun _ _ _ _ => ⟨.refused hd.constraints hd.unknowns_forgetAfter hne, hd.settings⟩)
  intro hc _ _
  refine ensures_installByProbe ((ensures_probe_recalls limit _ _).mono ?_)
  rintro p ⟨-, hp⟩
  have hbooks := hp
  simp only [books, Prod.mk.injEq] at hbooks
  have hsettings := hbooks.1.trans hd.settings
  have hlist := hbooks.2.1.trans hd.constraints
  refine ⟨fun _ => hinstall hc p.1.keepProbe hp, fun _ => ⟨.refused hlist ?_ hne, hsettings⟩,
    fun _ _ => ⟨.broken hlist hbooks.2.2.1, hsettings⟩⟩
  show p.1.unknowns.take s.unknowns.size = _
  rw [hbooks.2.2.1]
  exact hd.unknowns_forgetAfter

/-- Counting references does not change which variables are known. -/
theorem keys_countReference (f : Nat → Nat) (m : OrderedMap Variable (VariableEntry α))
    (t : Term α) : (countReference f m t).keys = m.keys := by
  unfold countReference
  split
  · rfl
  · exact OrderedMap.keys_modify _ _ _

theorem keys_retainVariables (s : Solver α) (c : Constraint α) :
    (s.retainVariables c).unknowns.keys = s.unknowns.keys :=
  retainVariables_induction (motive := fun m => m.keys = s.unknowns.keys) rfl
    (fun m t hm => (keys_countReference _ m t).trans hm) c

/-- A variable is made only for a term that refers to it. -/
theorem contains_or_of_contains_addTerm {draft : Row α × Solver α} {t : Term α} {v : Variable}
    (hv : (addTerm draft t).2.hasVariable v = true) :
    draft.2.hasVariable v = true ∨ t.refersTo v = true := by
  unfold addTerm at hv
  split at hv
  · exact Or.inl hv
  · rename_i hz
    have hz : Scalar.nearZero t.coefficient = false := by simpa using hz
    have hsymbol : (draft.2.symbolOf t.unknown).2.hasVariable v = true := by
      dsimp only at hv
      split at hv <;> exact hv
    unfold symbolOf at hsymbol
    split at hsymbol
    · exact Or.inl hsymbol
    · rename_i hnone
      have hnew := OrderedMap.get?_eq_none_iff.mp hnone
      rw [hasVariable, OrderedMap.contains_iff_mem_keys, OrderedMap.keys_insert, hnew] at hsymbol
      rcases List.mem_append.mp hsymbol with hold | hmade
      · exact Or.inl (OrderedMap.contains_iff_mem_keys.mpr hold)
      · rw [List.mem_singleton.mp hmade]
        exact Or.inr (Term.refersTo_unknown hz)

/-- The markers of a constraint are no variables. -/
theorem unknowns_addMarkers (r : Row α) (s : Solver α) (c : Constraint α) :
    (addMarkers r s c).2.2.unknowns = s.unknowns := by
  unfold addMarkers addSlack addErrors
  cases c.relation <;> dsimp only <;> split <;> rfl

/-- A variable that is known once the row of a constraint is made was known before, or
a term of the constraint refers to it. -/
theorem contains_or_of_contains_createRow {v : Variable}
    (hv : (s.createRow c).2.2.hasVariable v = true) :
    s.hasVariable v = true ∨ ∃ t ∈ c.expression.terms, t.refersTo v = true := by
  have hterms : (s.addTerms c).2.hasVariable v = true := by
    have hmarkers := unknowns_addMarkers (s.addTerms c).1 (s.addTerms c).2 c
    rw [createRow_eq] at hv
    rwa [hasVariable, hmarkers] at hv
  unfold addTerms at hterms
  generalize hdraft : (Row.ofConstant c.expression.constant, s) = draft at hterms
  have hs : draft.2 = s := by rw [← hdraft]
  rw [← hs]
  clear hdraft hs hv
  generalize c.expression.terms = terms at hterms
  induction terms generalizing draft with
  | nil => exact Or.inl hterms
  | cons t rest ih =>
      rcases ih _ hterms with hknown | ⟨x, hx, href⟩
      · rcases contains_or_of_contains_addTerm hknown with hold | href
        · exact Or.inl hold
        · exact Or.inr ⟨t, List.mem_cons_self .., href⟩
      · exact Or.inr ⟨x, List.mem_cons_of_mem t hx, href⟩

end Adding

section Removing

/-- What a removal leaves of the constraints and the variables: those of before, or
all but the constraint, with its references taken back. -/
inductive Departure (s : Solver α) (c : Constraint α) : Solver α → Prop
  | unknown {u} (hconstraints : u.constraints = s.constraints)
      (hunknowns : u.unknowns = s.unknowns) : Departure s c u
  | removed {u installed tag} (hfound : s.constraints.find? c = some (installed, tag))
      (hconstraints : u.constraints = s.constraints.erase c)
      (hunknowns : u.unknowns = ((detach { s with constraints := s.constraints.erase c }
        installed tag).releaseVariables installed).unknowns) : Departure s c u

/-- Taking a constraint out of the rows changes nothing of the settings, the constraints
and the variables. -/
theorem Ledger.books_detach (h : s.Ledger) {installed : Constraint α} {tag : Tag}
    (hf : s.constraints.find? c = some (installed, tag)) :
    (detach { s with constraints := s.constraints.erase c } installed tag).settings =
        s.settings ∧
      (detach { s with constraints := s.constraints.erase c } installed tag).constraints =
        s.constraints.erase c ∧
      (detach { s with constraints := s.constraints.erase c } installed tag).unknowns =
        s.unknowns := by
  have hout := (h.reworked_takeOut hf).books
  simp only [books, Prod.mk.injEq] at hout
  exact ⟨hout.1, hout.2.1, hout.2.2.1⟩

theorem ensures_departure (hs : s.Ledger) (limit : Nat) (c : Constraint α) :
    Ensures (s.remove limit c)
      (fun p => Departure s c p.1 ∧ p.1.settings = s.settings) := by
  refine ensures_remove (fun _ => ⟨.unknown rfl rfl, rfl⟩) ?_
  rintro ⟨installed, tag⟩ hf
  obtain ⟨hsettings, hconstraints, -⟩ := hs.books_detach hf
  obtain ⟨-, hsettings', hconstraints', -⟩ := (hs.releasing_detach hf).releaseVariables
  refine (ensures_reoptimize_books _ limit RemoveError.internal).mono ?_
  rintro p ⟨hp, -⟩
  simp only [books, Prod.mk.injEq] at hp
  exact ⟨.removed hf (hp.2.1.trans (hconstraints'.trans hconstraints)) hp.2.2.1,
    hp.1.trans (hsettings'.trans hsettings)⟩

end Removing

section Stability

/-- A property of the known variables that making a variable, counting references and
forgetting a variable keep.  A variable that is made has a symbol of its own, later
than those of the others. -/
structure VariableStable (I : OrderedMap Variable (VariableEntry α) → Prop) : Prop where
  empty : I .empty
  insert : ∀ {m} {v : Variable} {x : Symbol}, I m → m.contains v = false →
    (∀ e ∈ m.entries, e.2.symbol.id < x.id) → I (m.insert v ⟨x, none, 0⟩)
  count : ∀ {m} (f : Nat → Nat) (t : Term α), I m → I (countReference f m t)
  erase : ∀ {m} (v : Variable), I m → I (m.erase v)

variable {I : OrderedMap Variable (VariableEntry α) → Prop}

theorem VariableStable.addTerm (h : VariableStable I) {draft : Row α × Solver α}
    (hd : Draft draft) (hi : I draft.2.unknowns) (t : Term α) :
    I (addTerm draft t).2.unknowns := by
  have hsymbol : I (draft.2.symbolOf t.unknown).2.unknowns := by
    unfold symbolOf
    split
    · exact hi
    · rename_i hnone
      refine h.insert hi (OrderedMap.get?_eq_none_iff.mp hnone) ?_
      exact fun e he => (hd.1.counted.symbols e he).1.id_lt
  unfold Solver.addTerm
  split
  · exact hi
  · dsimp only
    split <;> exact hsymbol

theorem VariableStable.createRow (h : VariableStable I) (hs : s.Ledger) (hi : I s.unknowns)
    (c : Constraint α) : I (s.createRow c).2.2.unknowns := by
  have hterms : I (s.addTerms c).2.unknowns := by
    have hstart := hs.draft_ofConstant c.expression.constant
    exact (List.foldlRecOn (motive := fun draft => Draft draft ∧ I draft.2.unknowns)
      c.expression.terms Solver.addTerm ⟨hstart, hi⟩
      (fun _ hd t _ => ⟨hd.1.addTerm t, h.addTerm hd.1 hd.2 t⟩)).2
  rw [createRow_eq]
  dsimp only
  rwa [unknowns_addMarkers]

theorem VariableStable.retainVariables (h : VariableStable I) {u : Solver α}
    (hi : I u.unknowns) (c : Constraint α) : I (u.retainVariables c).unknowns :=
  retainVariables_induction hi (fun _ t hm => h.count (· + 1) t hm) c

theorem VariableStable.releaseVariables (h : VariableStable I) {u : Solver α}
    (hi : I u.unknowns) (c : Constraint α) : I (u.releaseVariables c).unknowns :=
  releaseVariables_induction (motive := fun u => I u.unknowns) hi
    (fun _ t hu => h.count (· - 1) t hu) (fun _ t _ hu => h.erase t.unknown (h.count (· - 1) t hu)) c

/-- What the parts of calls keep of the variables, calls keep. -/
theorem VariableStable.callStable (h : VariableStable I) (limit : Nat) :
    CallStable limit False (fun s : Solver α => I s.unknowns) := by
  refine .of_books (fun _ _ hunknowns hi => hunknowns ▸ hi) ?_ ?_ (fun _ => h.empty)
  · intro s hs hi c
    have hcreated := h.createRow hs hi c
    refine (ensures_accession s limit c).mono ?_
    rintro p ⟨haccession, -⟩ -
    cases haccession with
    | refused _ hunknowns _ => exact hunknowns ▸ hi
    | installed _ _ hunknowns _ => exact hunknowns ▸ h.retainVariables hcreated c
    | broken _ hunknowns => exact hunknowns ▸ hcreated
  · intro s hs hi c
    refine (ensures_departure hs limit c).mono ?_
    rintro p ⟨hdeparture, -⟩ -
    cases hdeparture with
    | unknown _ hunknowns => exact hunknowns ▸ hi
    | removed hf _ hunknowns =>
        rw [hunknowns]
        refine h.releaseVariables ?_ _
        rw [(hs.books_detach hf).2.2]
        exact hi

end Stability

end Solver
end Tether
