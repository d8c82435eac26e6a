import Tether.Scalar.Binary64
import Tether.Proofs.Solver.Membership
import Tether.Proofs.Touch.Lifecycle
import Tether.Proofs.Touch.Listing

/-!
# What comes of a touch that begins

For each coordinate of a touch that begins, a solver is asked to begin an edit and then
takes a suggestion.  The variable is not an edit variable before, since edit variables
are coordinates of active touches, whatever failed so far.  So there are three fates.

* A constraint of the content of the one that is to hold the variable is installed
  already.  Then the edit is called a duplicate, and there is nothing to suggest to.
* The solver breaks down, at the edit or at the suggestion.
* The edit begins and takes the suggestion.

An edit variable that began is one still when all touches have begun, and no other
coordinate is.
-/

namespace Tether

open Simplex Stateful

variable {α : Type}

namespace Solver

section Known

variable {s u : Solver α} {v : Variable}

theorem hasEditVariable_iff : s.hasEditVariable v = true ↔ v ∈ s.edits.keys :=
  OrderedMap.contains_iff_mem_keys

theorem not_hasEditVariable_iff : s.hasEditVariable v = false ↔ v ∉ s.edits.keys := by
  rw [← hasEditVariable_iff, Bool.not_eq_true]

/-- A call that may fail reports failures of its own. -/
theorem exists_of_failed {ε : Type} {wrap : ε → SolverError} {o : Outcome (Solver α) ε}
    {e : SolverError} (h : answer wrap o = .ok (u, .failed e)) :
    ∃ why, e = wrap why := by
  obtain ⟨result, -, hresult⟩ := exists_of_answer h
  cases result with
  | ok _ => cases hresult
  | error why => exact ⟨why, SolverAnswer.failed.inj hresult⟩

end Known

section EditedBy

variable {s u : Solver α} {v : Variable} {told more : List (Telling α)}

/-- Everything that a solver has for an edit variable is one by what was told. -/
def EditedBy (s : Solver α) (told : List (Telling α)) : Prop :=
  ∀ v ∈ s.edits.keys, EditChange.isAdded (Telling.changes v told) = true

/-- What is told of no variable leaves no other edit variables. -/
theorem EditedBy.quiet (h : s.EditedBy told)
    (hmore : ∀ v, Telling.changes v more = []) (hkeys : u.edits.keys ⊆ s.edits.keys) :
    u.EditedBy (told ++ more) := by
  intro v hv
  rw [Telling.changes_append, hmore, List.append_nil]
  exact h v (hkeys hv)

/-- What is told of one variable changes nothing about the other edit variables. -/
theorem EditedBy.edit (h : s.EditedBy told) {change : EditChange α}
    (hother : ∀ w ∈ u.edits.keys, w ≠ v → w ∈ s.edits.keys)
    (hself : v ∈ u.edits.keys →
      EditChange.leaves (EditChange.isAdded (Telling.changes v told)) change = true) :
    u.EditedBy (told ++ [.edited v change]) := by
  intro w hw
  by_cases hwv : w = v
  · subst hwv
    rw [Telling.changes_append, Telling.changes_edited, EditChange.isAdded, List.foldl_append]
    exact hself hw
  · rw [Telling.changes_append, Telling.changes_edited_of_ne (Ne.symm hwv), List.append_nil]
    exact h w (hother w hw hwv)

end EditedBy

variable [Scalar α]

section Fates

/-- What comes of coordinates that begin one after another: the solver in the end, the
variables whose edit began, and the failures on record. -/
inductive Onsets (limit : Nat) (strength : Strength α) :
    Solver α → List (Variable × α) → Solver α → List Variable → List SolverError → Prop
  | nothing (s : Solver α) : Onsets limit strength s [] s [] []
  /-- The edit begins and takes the suggestion. -/
  | begun {s u w z v x rest vs es}
      (hfree : s.hasConstraint (holding v (s.value v) (.clip strength.value)) = false)
      (hadd : s.perform limit (.addEdit v strength) = .ok (u, .done))
      (hsuggest : u.perform limit (.suggest v x) = .ok (w, .done))
      (hrest : Onsets limit strength w rest z vs es) :
      Onsets limit strength s ((v, x) :: rest) z (v :: vs) es
  /-- What is to hold the variable is installed. -/
  | held {s z v x rest vs es}
      (hheld : s.hasConstraint (holding v (s.value v) (.clip strength.value)) = true)
      (hrest : Onsets limit strength s rest z vs es) :
      Onsets limit strength s ((v, x) :: rest) z vs
        (.editVariable .duplicateEditVariable :: .suggestValue .unknownEditVariable :: es)
  /-- The solver breaks down when the edit is to begin. -/
  | broken {s u z v x rest vs es text}
      (hfree : s.hasConstraint (holding v (s.value v) (.clip strength.value)) = false)
      (hadd : s.perform limit (.addEdit v strength) =
        .ok (u, .failed (.editVariable (.internal text))))
      (hrest : Onsets limit strength u rest z vs es) :
      Onsets limit strength s ((v, x) :: rest) z vs
        (.editVariable (.internal text) :: .suggestValue .unknownEditVariable :: es)
  /-- The edit begins, and the solver breaks down at the suggestion. -/
  | strayed {s u w z v x rest vs es text}
      (hfree : s.hasConstraint (holding v (s.value v) (.clip strength.value)) = false)
      (hadd : s.perform limit (.addEdit v strength) = .ok (u, .done))
      (hsuggest : u.perform limit (.suggest v x) =
        .ok (w, .failed (.suggestValue (.internal text))))
      (hrest : Onsets limit strength w rest z vs es) :
      Onsets limit strength s ((v, x) :: rest) z (v :: vs) (.suggestValue (.internal text) :: es)

end Fates

section Beginning

variable {s : Solver α} {v : Variable} {strength : Strength α}

/-- An edit that may begin begins, unless what is to hold the variable is installed or the
solver breaks down. -/
inductive Beginning (s : Solver α) (v : Variable) (c : Constraint α) :
    Solver α × Except EditError Unit → Prop
  | begun {u : Solver α} (hfree : s.hasConstraint c = false)
      (hedits : u.edits.keys = s.edits.keys ++ [v]) : Beginning s v c (u, .ok ())
  | held (hheld : s.hasConstraint c = true) :
      Beginning s v c (s, .error .duplicateEditVariable)
  | broken {u : Solver α} {text} (hfree : s.hasConstraint c = false) (hedits : u.edits = s.edits) :
      Beginning s v c (u, .error (.internal text))

/-- The answers of an addition, and the edit variables after it. -/
theorem Ledger.add_fates (h : s.Ledger) (limit : Nat) (c : Constraint α) :
    Ensures (s.add limit c) (fun p =>
      (s.hasConstraint c = true → p = (s, .error .duplicateConstraint)) ∧
      (s.hasConstraint c = false → p.1.edits = s.edits ∧
        p.2 ≠ .error .duplicateConstraint ∧
        (p.2 = .ok () → p.1.constraints.get? c ≠ none))) := by
  cases hc : s.hasConstraint c with
  | true =>
      -- Only the first branch is for a constraint that is on the list.
      have habsurd : s.hasConstraint c ≠ false := by simp [hc]
      exact ensures_add (fun _ => ⟨fun _ => rfl, by simp⟩)
        (fun h => absurd h habsurd) (fun h => absurd h habsurd) (fun h => absurd h habsurd)
        (fun h => absurd h habsurd)
  | false =>
      refine ((h.add limit c).and (ensures_membership s limit c)).mono ?_
      rintro ⟨u, answer⟩ ⟨⟨-, -, hedits, -⟩, hmember⟩
      refine ⟨by simp, fun _ => ⟨hedits, ?_, ?_⟩⟩
      · rintro rfl
        have := (hmember.of_rejection (by simp)).2.mp rfl
        simp [hc] at this
      · rintro rfl
        exact get?_ne_none ((hmember.hasConstraint_iff (by simp)).mpr (.inl rfl))

theorem Ledger.ensures_beginning (h : s.Ledger) (hv : s.hasEditVariable v = false)
    (hstrength : (Strength.clip strength.value).isRequired = false) (limit : Nat) :
    Ensures (s.addEdit limit v strength)
      (Beginning s v (holding v (s.value v) (.clip strength.value))) := by
  unfold Solver.addEdit
  dsimp only
  rw [if_neg (by simp [hv]), if_neg (by simp [hstrength])]
  refine Ensures.map ((h.add_fates limit _).mono ?_)
  rintro ⟨u, answer⟩ ⟨hheld, hfree⟩
  cases hc : s.hasConstraint (holding v (s.value v) (.clip strength.value)) with
  | true =>
      obtain ⟨rfl, rfl⟩ := Prod.mk.inj (hheld hc)
      exact .held hc
  | false =>
      obtain ⟨hedits, hnew, hpresent⟩ := hfree hc
      cases answer with
      | ok _ =>
          obtain ⟨tag, htag⟩ := Option.ne_none_iff_exists'.mp (hpresent rfl)
          dsimp only
          rw [htag]
          refine .begun hc ?_
          show (u.edits.insert v _).keys = _
          rw [hedits, OrderedMap.keys_insert, if_neg (by simpa [hasEditVariable] using hv)]
      | error why =>
          cases why with
          | duplicateConstraint => exact absurd rfl hnew
          | unsatisfiableConstraint => exact .broken hc hedits
          | internal text => exact .broken hc hedits

/-- A suggestion to an edit variable can only break down. -/
theorem ensures_suggest_known (hv : s.hasEditVariable v = true) (limit : Nat) (x : α) :
    Ensures (s.suggest limit v x)
      (fun p => p.2 = .ok () ∨ ∃ text, p.2 = .error (.internal text)) := by
  refine ensures_suggest (fun hnone => ?_) (fun _ _ _ => .inl rfl) (fun edit _ => ?_)
  · rw [hasEditVariable, OrderedMap.get?_eq_none_iff.mp hnone] at hv
    cases hv
  · rintro ⟨u, answer⟩ -
    cases answer with
    | ok _ => exact .inl rfl
    | error why => exact .inr ⟨_, rfl⟩

/-- There is nothing to suggest to if the variable is not an edit variable. -/
theorem suggest_unknown (hv : s.hasEditVariable v = false) (limit : Nat) (x : α) :
    s.suggest limit v x = .ok (s, .error .unknownEditVariable) := by
  unfold Solver.suggest
  rw [OrderedMap.get?_eq_none_iff.mpr hv]

end Beginning

section Onsets

variable {s u z : Solver α} {limit : Nat} {strength : Strength α} {v : Variable}
  {coordinates : List (Variable × α)} {vs : List Variable} {es : List SolverError}

theorem suggest_keys_edits (s : Solver α) (limit : Nat) (v : Variable) (x : α) :
    Ensures (s.suggest limit v x) (fun p => p.1.edits.keys = s.edits.keys) := by
  refine (ensures_suggest_books s limit v x).mono ?_
  rintro p ⟨-, -, -, hedits⟩
  rw [hedits, OrderedMap.keys_modify]

/-- The calls by which coordinates begin. -/
def onsetCalls (strength : Strength α) (coordinates : List (Variable × α)) :
    List (SolverCall α) :=
  coordinates.flatMap (fun c => [.addEdit c.1 strength, .suggest c.1 c.2])

/-- One coordinate that begins: what may come of it, before the coordinates that follow. -/
theorem Ledger.onset (h : s.Ledger) (hv : s.hasEditVariable v = false)
    (hstrength : (Strength.clip strength.value).isRequired = false) (limit : Nat) (x : α) :
    Ensures (s.run limit [.addEdit v strength, .suggest v x]) (fun p => ∃ vs,
      p.1.Ledger ∧ p.1.edits.keys = s.edits.keys ++ vs ∧ (∀ w ∈ vs, w = v) ∧
      ∀ rest z ws es, Onsets limit strength p.1 rest z ws es →
        Onsets limit strength s ((v, x) :: rest) z (vs ++ ws)
          (p.2.filterMap (·.failure?) ++ es)) := by
  refine Ensures.bind ?_
  rintro ⟨u, first⟩ hadd
  refine Ensures.map (Ensures.bind ?_)
  rintro ⟨w, second⟩ hsuggest
  refine ensures_ok ?_
  have hu : u.Ledger := h.perform limit _ _ hadd
  have hw : w.Ledger := hu.perform limit _ _ hsuggest
  obtain ⟨begun, hbegun, rfl⟩ := exists_of_answer hadd
  obtain ⟨moved, hmoved, rfl⟩ := exists_of_answer hsuggest
  have hkeys : w.edits.keys = u.edits.keys := suggest_keys_edits u limit v x _ hmoved
  cases h.ensures_beginning hv hstrength limit _ hbegun with
  | begun hfree hedits =>
      have hknown : u.hasEditVariable v = true := hasEditVariable_iff.mpr (by simp [hedits])
      refine ⟨[v], hw, hkeys.trans hedits, by simp, fun rest z ws es hrest => ?_⟩
      rcases ensures_suggest_known hknown limit x _ hmoved with hok | ⟨text, hbroken⟩
      · obtain rfl : moved = .ok () := hok
        exact .begun hfree hadd hsuggest hrest
      · obtain rfl : moved = .error (.internal text) := hbroken
        exact .strayed hfree hadd hsuggest hrest
  | held hheld =>
      rw [suggest_unknown hv] at hmoved
      obtain ⟨rfl, rfl⟩ := Prod.mk.inj (Except.ok.inj hmoved)
      exact ⟨[], hw, by simp, by simp, fun rest z ws es hrest => .held hheld hrest⟩
  | broken hfree hedits =>
      have hunknown : u.hasEditVariable v = false := by rwa [hasEditVariable, hedits]
      rw [suggest_unknown hunknown] at hmoved
      obtain ⟨rfl, rfl⟩ := Prod.mk.inj (Except.ok.inj hmoved)
      exact ⟨[], hw, by simp [hedits], by simp, fun rest z ws es hrest =>
        .broken hfree hadd hrest⟩

/-- Coordinates of distinct variables that are not edit variables begin one after another,
and the edit variables that are new in the end are those that began. -/
theorem Ledger.onsets (h : s.Ledger) (hdistinct : (coordinates.map (·.1)).Nodup)
    (hnew : ∀ c ∈ coordinates, s.hasEditVariable c.1 = false)
    (hstrength : (Strength.clip strength.value).isRequired = false) (limit : Nat) :
    Ensures (s.run limit (onsetCalls strength coordinates)) (fun p => ∃ vs,
      p.1.edits.keys = s.edits.keys ++ vs ∧
      Onsets limit strength s coordinates p.1 vs (p.2.filterMap (·.failure?))) := by
  induction coordinates generalizing s with
  | nil => exact ensures_ok ⟨[], by simp, .nothing s⟩
  | cons c rest ih =>
      obtain ⟨v, x⟩ := c
      obtain ⟨hfresh, hdistinct⟩ := List.nodup_cons.mp hdistinct
      rw [onsetCalls, List.flatMap_cons, run_append]
      refine Ensures.bind ((h.onset (hnew _ List.mem_cons_self) hstrength limit x).mono ?_)
      rintro ⟨u, first⟩ ⟨vs, hu, hkeys, hvs, hgoes⟩
      refine Ensures.map ((ih hu hdistinct (fun c hc => ?_)).mono ?_)
      · have hne : c.1 ≠ v := fun he => hfresh (List.mem_map.mpr ⟨c, hc, he⟩)
        have hold := not_hasEditVariable_iff.mp (hnew c (List.mem_cons_of_mem _ hc))
        rw [not_hasEditVariable_iff, hkeys, List.mem_append]
        exact fun hmem => hmem.elim hold (fun hm => hne (hvs _ hm))
      · rintro ⟨z, others⟩ ⟨ws, hlast, honsets⟩
        refine ⟨vs ++ ws, ?_, ?_⟩
        · rw [hlast, hkeys, List.append_assoc]
        · rw [List.filterMap_append]
          exact hgoes _ _ _ _ honsets

/-- If nothing fails, every edit begins. -/
theorem Onsets.begun_eq (h : Onsets limit strength s coordinates z vs es) (hes : es = []) :
    vs = coordinates.map (·.1) := by
  induction h with
  | nothing s => rfl
  | begun hfree hadd hsuggest hrest ih => rw [ih hes]; rfl
  | held hheld hrest ih => cases hes
  | broken hfree hadd hrest ih => cases hes
  | strayed hfree hadd hsuggest hrest ih => cases hes

end Onsets

section Telling

variable {s : Solver α} {limit : Nat} {v : Variable} {told more : List (Telling α)}

/-- What all edit variables of a solver are among stays so when forms are added and taken
out. -/
theorem Ledger.run_adds (h : s.Ledger) (limit : Nat) (cs : List (Constraint α)) :
    Ensures (s.run limit (cs.map .add)) (fun p => p.1.edits = s.edits) := by
  have hstep : ∀ u : Solver α, u.Ledger ∧ u.edits = s.edits → ∀ call ∈ cs.map SolverCall.add,
      Ensures (u.perform limit call) (fun p => True → p.1.Ledger ∧ p.1.edits = s.edits) := by
    rintro u ⟨hu, hedits⟩ call hcall
    obtain ⟨c, -, rfl⟩ := List.mem_map.mp hcall
    exact Ensures.map ((hu.add limit c).mono (fun _ hp _ => ⟨hp.1, hp.2.2.1.trans hedits⟩))
  exact (ensures_run (A := fun _ => True) limit hstep ⟨h, rfl⟩).mono
    (fun _ hp => (hp (fun _ _ => trivial)).2)

theorem Ledger.run_removes (h : s.Ledger) (limit : Nat) (cs : List (Constraint α)) :
    Ensures (s.run limit (cs.map .remove)) (fun p => p.1.edits.keys ⊆ s.edits.keys) := by
  have hstep : ∀ u : Solver α, u.Ledger ∧ u.edits.keys ⊆ s.edits.keys →
      ∀ call ∈ cs.map SolverCall.remove, Ensures (u.perform limit call)
        (fun p => True → p.1.Ledger ∧ p.1.edits.keys ⊆ s.edits.keys) := by
    rintro u ⟨hu, hkeys⟩ call hcall
    obtain ⟨c, -, rfl⟩ := List.mem_map.mp hcall
    refine Ensures.map (((hu.remove limit c).and (hu.remove_edits limit c)).mono ?_)
    rintro p ⟨hp, hedits⟩ -
    refine ⟨hp.1, fun w hw => hkeys ?_⟩
    rw [hedits] at hw
    exact (List.filter_sublist.map _).subset hw
  exact (ensures_run (A := fun _ => True) limit hstep ⟨h, List.Subset.refl _⟩).mono
    (fun _ hp => (hp (fun _ _ => trivial)).2)

theorem Ledger.addEdit_keys (h : s.Ledger) (limit : Nat) (v : Variable) (strength : Strength α) :
    Ensures (s.addEdit limit v strength)
      (fun p => ∀ w ∈ p.1.edits.keys, w ∈ s.edits.keys ∨ w = v) := by
  refine ensures_addEdit (fun _ _ => .inl) (fun _ _ => .inl) (fun hv _ => ?_)
  refine (h.add limit _).mono ?_
  rintro p ⟨-, -, hedits, -⟩
  refine ⟨fun tag _ _ w hw => ?_, fun _ _ _ w hw => .inl (hedits ▸ hw),
    fun _ _ w hw => .inl (hedits ▸ hw)⟩
  change w ∈ (p.1.edits.insert v _).keys at hw
  rw [hedits, OrderedMap.keys_insert, if_neg (by simpa [hasEditVariable] using hv)] at hw
  simpa using hw

theorem Ledger.removeEdit_keys (h : s.Ledger) (limit : Nat) (v : Variable) :
    Ensures (s.removeEdit limit v)
      (fun p => ∀ w ∈ p.1.edits.keys, w ∈ s.edits.keys ∧ w ≠ v) := by
  refine ensures_removeEdit (fun hnone w hw => ⟨hw, ?_⟩) (fun edit _ => ?_)
  · rintro rfl
    have := OrderedMap.get?_eq_none_iff.mp hnone
    rw [OrderedMap.contains_iff_mem_keys.mpr hw] at this
    cases this
  · have herased : Ledger { s with edits := s.edits.erase v } := h.withEdits (h.held.erase v)
    refine (herased.remove_edits limit edit.constraint).mono ?_
    intro p hp w hw
    change w ∈ p.1.edits.keys at hw
    rw [hp] at hw
    have hkept : w ∈ (s.edits.erase v).keys := (List.filter_sublist.map _).subset hw
    refine ⟨List.mem_of_mem_eraseP (OrderedMap.keys_erase s.edits v ▸ hkept), ?_⟩
    rintro rfl
    have hgone := OrderedMap.get?_eq_none_iff.mp (OrderedMap.get?_erase_self h.held.keys w)
    rw [OrderedMap.contains_iff_mem_keys.mpr hkept] at hgone
    cases hgone

theorem ensures_run_singleton {Q : Solver α → Prop} {call : SolverCall α}
    (h : Ensures (s.perform limit call) (fun p => Q p.1)) :
    Ensures (s.run limit [call]) (fun p => Q p.1) := by
  refine Ensures.bind (h.mono ?_)
  rintro ⟨u, first⟩ hu
  exact ensures_ok hu

/-- One thing that is told. -/
theorem Ledger.editedBy_telling (h : s.Ledger) (hs : s.EditedBy told) (limit : Nat)
    (telling : Telling α) :
    Ensures (s.run limit telling.event.calls) (fun p => p.1.EditedBy (told ++ [telling])) := by
  cases telling with
  | added mentions =>
      exact (h.run_adds limit _).mono
        (fun p hp => hs.quiet (fun _ => rfl) (hp ▸ List.Subset.refl _))
  | removed mentions =>
      exact (h.run_removes limit _).mono (fun p hp => hs.quiet (fun _ => rfl) hp)
  | sampled v x => exact ensures_ok (hs.quiet (fun _ => rfl) (List.Subset.refl _))
  | edited v change =>
      cases change with
      | added strength =>
          have hstep : Ensures (s.perform limit (.addEdit v strength))
              (fun p => p.1.EditedBy (told ++ [.edited v (.added strength)])) :=
            Ensures.map ((h.addEdit_keys limit v strength).mono (fun p hp =>
              hs.edit (fun w hw hne => (hp w hw).resolve_right hne) (fun _ => rfl)))
          exact ensures_run_singleton (Q := fun u => u.EditedBy _) hstep
      | suggested x =>
          have hstep : Ensures (s.perform limit (.suggest v x))
              (fun p => p.1.EditedBy (told ++ [.edited v (.suggested x)])) :=
            Ensures.map ((suggest_keys_edits s limit v x).mono (fun p hp =>
              hs.edit (fun w hw _ => hp ▸ hw) (fun hv => hs v (hp ▸ hv))))
          exact ensures_run_singleton (Q := fun u => u.EditedBy _) hstep
      | removed =>
          have hstep : Ensures (s.perform limit (.removeEdit v))
              (fun p => p.1.EditedBy (told ++ [.edited v .removed])) :=
            Ensures.map ((h.removeEdit_keys limit v).mono (fun p hp =>
              hs.edit (fun w hw _ => (hp w hw).1) (fun hv => absurd rfl (hp v hv).2)))
          exact ensures_run_singleton (Q := fun u => u.EditedBy _) hstep

/-- Whatever a solver is told, and whatever fails, its edit variables are among those that
are there by what was told. -/
theorem Ledger.editedBy_run (h : s.Ledger) (hs : s.EditedBy told) (limit : Nat)
    (more : List (Telling α)) :
    Ensures (s.run limit (Telling.calls more)) (fun p => p.1.EditedBy (told ++ more)) := by
  induction more generalizing s told with
  | nil => exact ensures_ok (by rwa [List.append_nil])
  | cons telling rest ih =>
      have hcalls : Telling.calls (telling :: rest) = telling.event.calls ++ Telling.calls rest :=
        rfl
      rw [hcalls, run_append]
      refine Ensures.bind (((h.run limit _).and (h.editedBy_telling hs limit telling)).mono ?_)
      rintro ⟨u, first⟩ ⟨hu, hedited⟩
      refine Ensures.map ((ih hu hedited).mono ?_)
      rintro ⟨w, others⟩ hw
      rwa [List.append_assoc] at hw

/-- Every answer of a run is the answer to one of its calls. -/
theorem mem_answers (s : Solver α) (limit : Nat) (calls : List (SolverCall α)) :
    Ensures (s.run limit calls) (fun p => ∀ a ∈ p.2, ∃ call ∈ calls, ∃ u w : Solver α,
      u.perform limit call = .ok (w, a)) := by
  induction calls generalizing s with
  | nil => exact ensures_ok (by simp)
  | cons call rest ih =>
      refine Ensures.bind ?_
      rintro ⟨u, first⟩ hfirst
      refine Ensures.map ((ih u).mono ?_)
      rintro ⟨w, others⟩ hothers a ha
      rcases List.mem_cons.mp ha with rfl | ha
      · exact ⟨call, List.mem_cons_self, s, u, hfirst⟩
      · obtain ⟨later, hlater, hperform⟩ := hothers a ha
        exact ⟨later, List.mem_cons_of_mem _ hlater, hperform⟩

theorem failures_of_calls {P : SolverError → Prop} {calls : List (SolverCall α)}
    (h : ∀ call ∈ calls, ∀ u w : Solver α, ∀ e, u.perform limit call = .ok (w, .failed e) → P e) :
    Ensures (s.run limit calls) (fun p => ∀ e ∈ p.2.filterMap (·.failure?), P e) := by
  refine (mem_answers s limit calls).mono (fun p hp e he => ?_)
  obtain ⟨a, ha, hfailure⟩ := List.mem_filterMap.mp he
  obtain ⟨call, hcall, u, w, hperform⟩ := hp a ha
  cases a with
  | failed e' =>
      obtain rfl : e' = e := Option.some.inj hfailure
      exact h call hcall u w e' hperform
  | done => cases hfailure
  | flag b => cases hfailure
  | value x => cases hfailure
  | updates outcome changes => cases hfailure
  | constraints cs => cases hfailure
  | settings settings => cases hfailure

theorem failures_of_adds (s : Solver α) (limit : Nat) (cs : List (Constraint α)) :
    Ensures (s.run limit (cs.map .add)) (fun p => ∀ e ∈ p.2.filterMap (·.failure?),
      ∃ why, e = .addConstraint why) := by
  refine failures_of_calls (fun call hcall u w e hfailed => ?_)
  obtain ⟨c, -, rfl⟩ := List.mem_map.mp hcall
  exact exists_of_failed hfailed

theorem failures_of_removes (s : Solver α) (limit : Nat) (cs : List (Constraint α)) :
    Ensures (s.run limit (cs.map .remove)) (fun p => ∀ e ∈ p.2.filterMap (·.failure?),
      ∃ why, e = .removeConstraint why) := by
  refine failures_of_calls (fun call hcall u w e hfailed => ?_)
  obtain ⟨c, -, rfl⟩ := List.mem_map.mp hcall
  exact exists_of_failed hfailed

end Telling

end Solver

namespace Tracker

section Calls

theorem keys_coordinates (points : List (TouchPoint α)) :
    (points.flatMap (·.coordinates)).map (·.1) = TouchId.variables (points.map (·.id)) := by
  simp [TouchPoint.coordinates, TouchId.variables, List.map_flatMap, List.flatMap_map]

theorem calls_arrivals (strength : Strength α) (points : List (TouchPoint α)) :
    Telling.calls (points.flatMap (Telling.arrival strength)) =
      Solver.onsetCalls strength (points.flatMap (·.coordinates)) := by
  simp [Telling.calls, Solver.onsetCalls, Telling.arrival, List.map_flatMap,
    List.flatMap_assoc, Telling.event, TouchEvent.calls]

variable [Scalar α] {t u : Tracker α} {points : List (TouchPoint α)}
  {tellings : List (Telling α)}

/-- When touches begin, constraints are taken out, coordinates of new touches begin, and
constraints are added. -/
theorem Tells.of_beginTouches (h : t.Tells (.beginTouches points) tellings u) (ht : t.Orderly) :
    (t.touches.keys ++ points.map (·.id)).Nodup ∧ ∃ removed added : List (Constraint α),
      Telling.calls tellings = removed.map .remove ++
        (Solver.onsetCalls t.settings.touchStrength (points.flatMap (·.coordinates)) ++
          added.map .add) := by
  cases h with
  | beginNone => exact ⟨by simpa using ht.touches, [], [], rfl⟩
  | begin some distinct h =>
      obtain ⟨-, -⟩ := h
      rename_i values made
      refine ⟨distinct, (t.forms.map Mention.formed).map Mention.constraint, (made.map (fun e =>
        Mention.formed ⟨e.1, e.2, (t.joined points).touches.keys⟩)).map Mention.constraint, ?_⟩
      rw [Telling.calls_append, Telling.calls_append, Telling.calls_append, retraction,
        Telling.calls_removing, calls_arrivals, Telling.calls_reading, Telling.calls_adding,
        List.nil_append, List.append_assoc]
  | endNone hcall none => simp at hcall
  | ended hcall some h => simp at hcall

end Calls

section Results

variable [Scalar α] {t t' : Tracker α} {r r' : Relay α} {points : List (TouchPoint α)}

/-- After every run, whatever failed in it, the edit variables of the solver are coordinates
of the active touches. -/
theorem mem_variables_of_edited (settings settings' : Settings α) (limit : Nat)
    {listener : Listener (RelayM α) α} (hrelays : listener.Relays limit)
    (calls : List (TrackerCall α))
    (hrun : ((empty settings).run listener calls).run (Relay.ofSolver (Solver.empty settings')) =
      .ok (t, r)) :
    t.Orderly ∧ t.settings = settings ∧ r.solver.Ledger ∧
      ∀ v ∈ r.solver.edits.keys, v ∈ TouchId.variables t.touches.keys := by
  have hempty : (empty settings : Tracker α).Orderly := orderly_empty settings
  obtain ⟨chapters, ⟨answers, hsolver, -⟩, h, -⟩ :=
    exists_recounts hrelays.runs hempty calls hrun
  have hledger := Solver.ledger_empty (α := α) settings'
  have hstart : Tracks True (empty settings : Tracker α).positions [] :=
    ⟨fun _ he => (by cases he), fun _ _ => .ended [] (fun _ _ hl => (by cases hl))⟩
  refine ⟨h.orderly hempty, h.settings_eq, hledger.run limit _ _ hsolver, fun v hv => ?_⟩
  have hnone : (Solver.empty settings').EditedBy ([] : List (Telling α)) :=
    fun v hv => (by cases hv)
  have hadded := hledger.editedBy_run hnone limit chapters.flatten _ hsolver v hv
  obtain ⟨value, hstory, hvalue⟩ := (h.tracks hempty hstart).exists_story v
  obtain ⟨x, hx⟩ := hvalue.mp (hstory.isAdded_eq ▸ hadded)
  rw [← keys_positions]
  exact List.mem_map.mpr ⟨(v, x), hx, rfl⟩

/-- After every run, whatever failed in it, touches that begin are passed on in three parts:
constraints are taken out, coordinates begin one after another, and constraints are added.
Unless the touch strength, cut to its range, is required, each coordinate begins and takes
its position, or is held already by a constraint of the content of the one that is to hold
it, or the solver breaks down at it.  What is on record of edits and suggestions is what came
of the coordinates.  The coordinates that are edit variables in the end are those that began,
and these are all of them if nothing is on record. -/
theorem begun_touches_are_edited (settings settings' : Settings α) (limit : Nat)
    {listener : Listener (RelayM α) α} (hrelays : listener.Relays limit)
    (hstrength : (Strength.clip settings.touchStrength.value).isRequired = false)
    (calls : List (TrackerCall α))
    (hrun : ((empty settings).run listener calls).run (Relay.ofSolver (Solver.empty settings')) =
      .ok (t, r))
    (hbegin : (t.beginTouches listener points).run r = .ok (t', r')) :
    ∃ (removed added : List (Constraint α)) (s₀ s₁ : Solver α)
      (before after : List (SolverAnswer α)) (begun : List Variable) (onset : List SolverError),
      r.solver.run limit (removed.map .remove) = .ok (s₀, before) ∧
      s₀.Onsets limit settings.touchStrength (points.flatMap (·.coordinates)) s₁ begun onset ∧
      s₁.run limit (added.map .add) = .ok (r'.solver, after) ∧
      r'.failures = r.failures ++
        (before.filterMap (·.failure?) ++ (onset ++ after.filterMap (·.failure?))) ∧
      (∀ e ∈ before.filterMap (·.failure?), ∃ why, e = .removeConstraint why) ∧
      (∀ e ∈ after.filterMap (·.failure?), ∃ why, e = .addConstraint why) ∧
      (∀ c ∈ points.flatMap (·.coordinates),
        r'.solver.hasEditVariable c.1 = true ↔ c.1 ∈ begun) ∧
      (onset = [] → begun = (points.flatMap (·.coordinates)).map (·.1)) := by
  obtain ⟨ht, rfl, hledger, hedits⟩ :=
    mem_variables_of_edited settings settings' limit hrelays calls hrun
  obtain ⟨tellings, ⟨answers, hsolver, hfailures⟩, htells⟩ :=
    (meets_perform hrelays.runs ht (.beginTouches points)).of_ok hbegin
  obtain ⟨hdistinct, removed, added, hcalls⟩ := htells.of_beginTouches ht
  change r.solver.run limit (Telling.calls tellings) = .ok (r'.solver, answers) at hsolver
  rw [hcalls] at hsolver
  obtain ⟨s₀, before, rest, hbefore, hrest, rfl⟩ := Solver.exists_run_of_append hsolver
  obtain ⟨s₁, middle, after, hmiddle, hafter, rfl⟩ := Solver.exists_run_of_append hrest
  have hs₀ : s₀.Ledger := hledger.run limit _ _ hbefore
  have hkept : s₀.edits.keys ⊆ r.solver.edits.keys := hledger.run_removes limit _ _ hbefore
  -- The coordinates of touches that are not active are no edit variables.
  have hold : ∀ v ∈ s₀.edits.keys, v ∉ TouchId.variables (points.map (·.id)) := by
    intro v hv hnew
    obtain ⟨id, hid, hvid⟩ := TouchId.mem_variables.mp (hedits v (hkept hv))
    obtain ⟨id', hid', hvid'⟩ := TouchId.mem_variables.mp hnew
    refine List.disjoint_of_nodup_append hdistinct hid ?_
    have : id' = id := by
      rcases hvid with rfl | rfl <;> simpa [Variable.ofTouch, eq_comm] using hvid'
    rwa [this] at hid'
  have hkeys := keys_coordinates points
  obtain ⟨begun, hbegun, honsets⟩ := hs₀.onsets
    (hkeys ▸ TouchId.nodup_variables (List.Nodup.of_append_right hdistinct))
    (fun c hc => Solver.not_hasEditVariable_iff.mpr (fun hv =>
      hold _ hv (hkeys ▸ List.mem_map_of_mem hc))) hstrength limit _ hmiddle
  have hs₁ : s₁.Ledger := hs₀.run limit _ _ hmiddle
  refine ⟨removed, added, s₀, s₁, before, after, begun, _, hbefore, honsets, hafter, ?_,
    Solver.failures_of_removes r.solver limit removed _ hbefore,
    Solver.failures_of_adds s₁ limit added _ hafter, fun c hc => ?_, honsets.begun_eq⟩
  · rw [hfailures, List.filterMap_append, List.filterMap_append]
  · have hnew : c.1 ∉ s₀.edits.keys := fun hv => hold _ hv (hkeys ▸ List.mem_map_of_mem hc)
    rw [Solver.hasEditVariable_iff, hs₁.run_adds limit added _ hafter, hbegun, List.mem_append]
    exact or_iff_right hnew

/-- A constraint that pins the horizontal position of a touch at zero, with the content of
the one that is to hold it. -/
def pinned : Constraint Binary64 :=
  ⟨"pinned", ⟨[.symbolic (.ofTouch ⟨7⟩ .positionX) Scalar.one], Scalar.zero⟩, .equalTo, .touch⟩

/-- A touch at (3, 4). -/
def seventh : TouchPoint Binary64 :=
  ⟨⟨7⟩, .ofDecimal 3 0, .ofDecimal 4 0⟩

/-- One coordinate of a touch is pinned, and the other one begins. -/
theorem pinned_touch_begins_in_part :
    ∃ (t t' : Tracker Binary64) (r r' : Relay Binary64),
      ((empty .standard).run (Relay.listener 9 (fun _ => Scalar.zero))
        [.register [pinned]]).run (Relay.ofSolver (Solver.empty .standard)) = .ok (t, r) ∧
      (t.beginTouches (Relay.listener 9 (fun _ => Scalar.zero)) [seventh]).run r = .ok (t', r') ∧
      ∃ (s₀ s₁ : Solver Binary64) (begun : List Variable) (onset : List SolverError),
        s₀.Onsets 9 .touch ([seventh].flatMap (·.coordinates)) s₁ begun onset ∧
        r'.solver.edits.keys = [.ofTouch ⟨7⟩ .positionY] ∧
        .ofTouch ⟨7⟩ .positionX ∉ begun ∧ onset ≠ [] := by
  have hchain : (((empty .standard : Tracker Binary64).run
      (Relay.listener 9 (fun _ => Scalar.zero)) [.register [pinned]]).run
        (Relay.ofSolver (Solver.empty .standard))).toOption.any (fun p =>
          ((p.1.beginTouches (Relay.listener 9 (fun _ => Scalar.zero)) [seventh]).run
            p.2).toOption.any (fun q => decide (q.2.solver.edits.keys =
              [.ofTouch ⟨7⟩ .positionY]))) = true := by
    decide +kernel
  obtain ⟨⟨t, r⟩, hrun, hrest⟩ := exists_ok_of_any hchain
  obtain ⟨⟨t', r'⟩, hbegin, hkeys⟩ := exists_ok_of_any hrest
  obtain ⟨-, -, s₀, s₁, -, -, begun, onset, -, honsets, -, -, -, -, hbegun, hall⟩ :=
    begun_touches_are_edited .standard .standard 9 (Relay.relays_listener 9 (fun _ => Scalar.zero))
      (by decide +kernel) _ hrun hbegin
  have hkeys : r'.solver.edits.keys = [.ofTouch ⟨7⟩ .positionY] := of_decide_eq_true hkeys
  have hpinned : Variable.ofTouch ⟨7⟩ .positionX ∉ begun := by
    have hedited := hbegun (.ofTouch ⟨7⟩ .positionX, .ofDecimal 3 0) (List.mem_cons_self ..)
    rw [← hedited, Solver.hasEditVariable_iff, hkeys]
    decide
  refine ⟨t, t', r, r', hrun, hbegin, s₀, s₁, begun, onset, honsets, hkeys, hpinned, ?_⟩
  intro hnone
  rw [hall hnone] at hpinned
  exact hpinned (List.mem_cons_self ..)

/-- A touch may begin and not be edited: if the touch strength is set to required, if a
constraint of the content of the one that is to hold it is there, and if a constraint of
negative strength makes the solver break down. -/
theorem begun_touch_may_not_be_edited :
    (((empty (Settings.standard.withTouchStrength .required) : Tracker Binary64).beginTouches
        (Relay.listener 9 (fun _ => Scalar.zero)) [seventh]).run
          (Relay.ofSolver (Solver.empty (Settings.standard.withTouchStrength
            .required)))).toOption.any
              (fun p => decide (p.2.failures = [.editVariable .badRequiredStrength,
                .suggestValue .unknownEditVariable, .editVariable .badRequiredStrength,
                .suggestValue .unknownEditVariable]) &&
                decide (p.2.solver.edits.keys = [])) = true ∧
    (((empty .standard : Tracker Binary64).run (Relay.listener 9 (fun _ => Scalar.zero))
        [.register [pinned], .beginTouches [seventh]]).run
          (Relay.ofSolver (Solver.empty .standard))).toOption.any
            (fun p => decide (p.2.failures = [.editVariable .duplicateEditVariable,
              .suggestValue .unknownEditVariable]) &&
              decide (p.2.solver.edits.keys = [.ofTouch ⟨7⟩ .positionY])) = true ∧
    (((empty .standard : Tracker Binary64).run (Relay.listener 9 (fun _ => Scalar.zero))
        [.register [⟨"odd", ⟨[.symbolic ⟨.entity ⟨0⟩, .width⟩ Scalar.one], Scalar.zero⟩,
          .equalTo, ⟨-Scalar.one⟩⟩], .beginTouches [seventh]]).run
          (Relay.ofSolver (Solver.empty .standard))).toOption.any
            (fun p => p.2.failures.any (fun e => match e with
              | .editVariable (.internal _) => true
              | _ => false) && decide (p.2.solver.edits.keys = [])) = true := by
  refine ⟨?_, ?_, ?_⟩ <;> decide +kernel

end Results

end Tracker
end Tether
