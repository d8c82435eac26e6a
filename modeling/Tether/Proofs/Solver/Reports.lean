import Mathlib.Logic.Function.Basic
import Tether.Proofs.Solver.Variables

/-!
# What a client learns from flushes

A client that writes every change it is handed into a map has, after each flush, the
value of every known variable.  A flush compares the value of a variable with the one
that was handed out last, so the map is right as long as the solver remembers, of each
variable it knows, nothing but what the map says.

Making a variable, counting its references and forgetting it keep that, since a variable
that is made starts out with nothing handed out.  Nothing here uses a law of arithmetic:
a value that is not equal to itself is handed out again at every flush.
-/

namespace Tether

open Simplex

variable {α : Type}

section Clients

/-- The changes that an answer hands out. -/
def SolverAnswer.changes : SolverAnswer α → List (Variable × α)
  | .updates _ changes => changes
  | _ => []

/-- Writes changes into the map of a client, one after another. -/
def writeDown (m : Variable → Option α) (changes : List (Variable × α)) : Variable → Option α :=
  changes.foldl (fun m e => Function.update m e.1 (some e.2)) m

/-- The map of a client that has written down everything that was handed out. -/
def told (answers : List (SolverAnswer α)) : Variable → Option α :=
  writeDown (fun _ => none) (answers.flatMap (·.changes))

/-- Two values are numerically equal, or neither is equal to itself. -/
def Scalar.Agree [Scalar α] (x y : α) : Prop :=
  Scalar.equals x y = true ∨ (Scalar.equals x x = false ∧ Scalar.equals y y = false)

theorem Scalar.agree_self [Scalar α] (x : α) : Scalar.Agree x x := by
  cases h : Scalar.equals x x with
  | true => exact Or.inl h
  | false => exact Or.inr ⟨h, h⟩

theorem writeDown_append (m : Variable → Option α) (changes later : List (Variable × α)) :
    writeDown m (changes ++ later) = writeDown (writeDown m changes) later :=
  List.foldl_append

theorem told_append (answers later : List (SolverAnswer α)) :
    told (answers ++ later) = writeDown (told answers) (later.flatMap (·.changes)) := by
  rw [told, List.flatMap_append, writeDown_append]
  rfl

variable {m : Variable → Option α} {changes : List (Variable × α)} {v : Variable}

theorem writeDown_of_not_mem (h : v ∉ changes.map (·.1)) : writeDown m changes v = m v := by
  induction changes generalizing m with
  | nil => rfl
  | cons e rest ih =>
      rw [List.map_cons, List.mem_cons, not_or] at h
      exact (ih h.2).trans (Function.update_of_ne h.1 _ _)

theorem writeDown_of_mem {x : α} (hkeys : (changes.map (·.1)).Nodup) (h : (v, x) ∈ changes) :
    writeDown m changes v = some x := by
  induction changes generalizing m with
  | nil => cases h
  | cons e rest ih =>
      obtain ⟨hfresh, hrest⟩ := List.nodup_cons.mp hkeys
      rcases List.mem_cons.mp h with rfl | hlater
      · exact (writeDown_of_not_mem hfresh).trans (Function.update_self ..)
      · exact ih hrest hlater

end Clients

section Remembering

/-- What is remembered of the known variables is what a map says. -/
def Informed (m : Variable → Option α) (known : OrderedMap Variable (VariableEntry α)) : Prop :=
  ∀ e ∈ known.entries, ∀ x, e.2.reported = some x → m e.1 = some x

/-- The variables stand in the order in which their symbols were made. -/
def Ascending (known : OrderedMap Variable (VariableEntry α)) : Prop :=
  (known.entries.map (·.2.symbol.id)).Pairwise (· < ·)

variable [Scalar α] {m : Variable → Option α}

/-- Counting references changes nothing else of an entry. -/
theorem map_entries_countReference {β : Type} {g : VariableEntry α → β}
    (hg : ∀ entry n, g { entry with references := n } = g entry) (f : Nat → Nat)
    (known : OrderedMap Variable (VariableEntry α)) (t : Term α) :
    (Solver.countReference f known t).entries.map (fun e => (e.1, g e.2)) =
      known.entries.map (fun e => (e.1, g e.2)) := by
  unfold Solver.countReference
  split
  · rfl
  · exact OrderedMap.map_entries_modify (fun entry => hg entry _) known t.unknown

theorem variableStable_informed (m : Variable → Option α) :
    Solver.VariableStable (Informed m) where
  empty := by
    intro e he
    cases he
  insert := by
    intro known v x h hv _ e he y hy
    rw [OrderedMap.entries_insert_of_not_contains hv] at he
    rcases List.mem_append.mp he with hold | hmade
    · exact h e hold y hy
    · rw [List.mem_singleton.mp hmade] at hy
      cases hy
  count := by
    intro known f t h e he y hy
    have hmap := map_entries_countReference (g := VariableEntry.reported)
      (fun _ _ => rfl) f known t
    have hmem : (e.1, e.2.reported) ∈ known.entries.map (fun e => (e.1, e.2.reported)) :=
      hmap ▸ List.mem_map_of_mem he
    obtain ⟨d, hd, hde⟩ := List.mem_map.mp hmem
    obtain ⟨hvariable, hreported⟩ := Prod.mk.inj hde
    rw [← hvariable]
    exact h d hd y (hreported.trans hy)
  erase := fun _ h e he => h e (OrderedMap.mem_of_mem_erase he)

theorem variableStable_ascending :
    Solver.VariableStable (Ascending : OrderedMap Variable (VariableEntry α) → Prop) where
  empty := List.Pairwise.nil
  insert := by
    intro known v x h hv hx
    rw [Ascending, OrderedMap.entries_insert_of_not_contains hv, List.map_append]
    refine List.pairwise_append.mpr ⟨h, List.pairwise_singleton _ _, ?_⟩
    intro id hid later hlater
    obtain ⟨e, he, rfl⟩ := List.mem_map.mp hid
    rw [List.mem_singleton.mp hlater]
    exact hx e he
  count := by
    intro known f t h
    have hmap := map_entries_countReference (g := fun entry => entry.symbol.id)
      (fun _ _ => rfl) f known t
    have hids := congrArg (List.map Prod.snd) hmap
    simp only [List.map_map, Function.comp_def] at hids
    rw [Ascending, hids]
    exact h
  erase := fun _ h => h.sublist (List.eraseP_sublist.map _)

end Remembering

namespace Solver

variable [Scalar α] {s : Solver α} {m : Variable → Option α}

section Flushing

theorem pending_eq (s : Solver α) : s.pending =
    (s.unknowns.entries.filter (fun e => s.isStale e.2)).map
      (fun e => (e.1, s.symbolValue e.2.symbol)) := by
  unfold pending
  induction s.unknowns.entries with
  | nil => rfl
  | cons e rest ih => by_cases hstale : s.isStale e.2 = true <;> simp [hstale, ih]

/-- What is handed out stands in the order of the known variables. -/
theorem keys_pending_sublist (s : Solver α) :
    (s.pending.map (·.1)).Sublist s.unknowns.keys := by
  rw [pending_eq, List.map_map]
  exact List.filter_sublist.map _

theorem value?_of_mem_pending (hkeys : s.unknowns.keys.Nodup) {e : Variable × α}
    (he : e ∈ s.pending) : s.value? e.1 = some e.2 := by
  rw [pending_eq] at he
  obtain ⟨d, hd, rfl⟩ := List.mem_map.mp he
  have hget : s.unknowns.get? d.1 = some d.2 :=
    (OrderedMap.get?_eq_some_iff hkeys).mpr (List.mem_of_mem_filter hd)
  rw [value?, hget]
  rfl

/-- A flush changes no value. -/
theorem value?_flush (s : Solver α) (v : Variable) : s.flush.1.value? v = s.value? v := by
  have hget : s.flush.1.unknowns.get? v = (s.unknowns.get? v).map (fun entry =>
      if s.isStale entry then { entry with reported := some (s.symbolValue entry.symbol) }
      else entry) :=
    OrderedMap.get?_mapValues _ _ _
  rw [value?, hget, value?, Option.map_map]
  congr 1
  funext entry
  dsimp only [Function.comp_apply]
  split <;> rfl

theorem ascending_flush (h : Ascending s.unknowns) : Ascending s.flush.1.unknowns := by
  have hids : s.flush.1.unknowns.entries.map (·.2.symbol.id) =
      s.unknowns.entries.map (·.2.symbol.id) := by
    simp only [flush, markReported, OrderedMap.mapValues, List.map_map]
    refine List.map_congr_left (fun e _ => ?_)
    dsimp only [Function.comp_apply]
    split <;> rfl
  rw [Ascending, hids]
  exact h

/-- An entry whose value is not stale is not handed out. -/
theorem not_mem_keys_pending (hkeys : s.unknowns.keys.Nodup) {e : Variable × VariableEntry α}
    (he : e ∈ s.unknowns.entries) (hfresh : s.isStale e.2 = false) :
    e.1 ∉ s.pending.map (·.1) := by
  rw [pending_eq, List.map_map]
  intro hmem
  obtain ⟨d, hd, hde⟩ := List.mem_map.mp hmem
  obtain ⟨hold, hstale⟩ := List.mem_filter.mp hd
  rw [List.inj_on_of_nodup_map hkeys hold he hde, hfresh] at hstale
  cases hstale

/-- What a flush hands out brings a map up to date: of every entry it has a value that
agrees with the present one, and the solver remembers just that value. -/
theorem writeDown_pending (hkeys : s.unknowns.keys.Nodup) (h : Informed m s.unknowns)
    {e : Variable × VariableEntry α} (he : e ∈ s.unknowns.entries) :
    ∃ x, writeDown m s.pending e.1 = some x ∧ Scalar.Agree x (s.symbolValue e.2.symbol) ∧
      (s.isStale e.2 = true → x = s.symbolValue e.2.symbol) ∧
      (s.isStale e.2 = false → e.2.reported = some x) := by
  cases hstale : s.isStale e.2 with
  | true =>
      have hmem : (e.1, s.symbolValue e.2.symbol) ∈ s.pending := by
        rw [pending_eq]
        exact List.mem_map_of_mem (List.mem_filter.mpr ⟨he, hstale⟩)
      have hnodup := (keys_pending_sublist s).nodup hkeys
      exact ⟨_, writeDown_of_mem hnodup hmem, Scalar.agree_self _, fun _ => rfl, nofun⟩
  | false =>
      have hfresh := hstale
      unfold isStale at hfresh
      cases hreported : e.2.reported with
      | none =>
          rw [hreported] at hfresh
          cases hfresh
      | some x =>
          rw [hreported, Bool.not_eq_false'] at hfresh
          refine ⟨x, ?_, Or.inl hfresh, nofun, fun _ => rfl⟩
          rw [writeDown_of_not_mem (not_mem_keys_pending hkeys he hstale)]
          exact h e he x hreported

theorem informed_flush (hkeys : s.unknowns.keys.Nodup) (h : Informed m s.unknowns) :
    Informed (writeDown m s.pending) s.flush.1.unknowns := by
  intro e he x hx
  obtain ⟨d, hd, rfl⟩ := List.mem_map.mp he
  obtain ⟨y, hy, -, hstale, hfresh⟩ := writeDown_pending hkeys h hd
  dsimp only at hx ⊢
  rw [hy]
  split at hx
  · rename_i hs
    rw [hstale hs]
    exact hx
  · rename_i hs
    rw [← hfresh (by simpa using hs)]
    exact hx

end Flushing

section Runs

/-- A solver in order, and a client that has written down what the solver remembers. -/
structure InStep (m : Variable → Option α) (s : Solver α) : Prop where
  ledger : s.Ledger
  informed : Informed m s.unknowns

/-- Only a flush hands out changes. -/
theorem ensures_changes {call : SolverCall α} (hcall : call ≠ .flush) (s : Solver α)
    (limit : Nat) : Ensures (s.perform limit call) (fun p => p.2.changes = []) := by
  have hanswer : ∀ {ε : Type} (wrap : ε → SolverError) (outcome : Outcome (Solver α) ε),
      Ensures (answer wrap outcome) (fun p => p.2.changes = []) := by
    intro ε wrap outcome
    refine Ensures.map ?_
    rintro ⟨u, answer⟩ -
    cases answer <;> rfl
  cases call with
  | flush => exact absurd rfl hcall
  | add c => exact hanswer _ _
  | addAll cs => exact hanswer _ _
  | remove c => exact hanswer _ _
  | removeAll cs => exact hanswer _ _
  | addEdit v strength => exact hanswer _ _
  | removeEdit v => exact hanswer _ _
  | suggest v x => exact hanswer _ _
  | reset => exact ensures_ok rfl
  | hasConstraint c => exact ensures_ok rfl
  | hasEditVariable v => exact ensures_ok rfl
  | hasVariable v => exact ensures_ok rfl
  | value v => exact ensures_ok rfl
  | constraints => exact ensures_ok rfl
  | settings => exact ensures_ok rfl

theorem InStep.perform (h : InStep m s) (limit : Nat) (call : SolverCall α) :
    Ensures (s.perform limit call) (fun p => InStep (writeDown m p.2.changes) p.1) := by
  refine ((h.ledger.perform limit call).and ?_).mono (fun _ hp => ⟨hp.1, hp.2⟩)
  by_cases hcall : call = .flush
  · subst hcall
    exact ensures_ok (informed_flush h.ledger.counted.keys h.informed)
  · have hinformed := ((variableStable_informed m).callStable limit).perform h.ledger h.informed
      call (fun hflush => absurd hflush hcall)
    refine (hinformed.and (ensures_changes hcall s limit)).mono ?_
    rintro p ⟨hp, hchanges⟩
    rw [hchanges]
    exact hp nofun

/-- After every run the client has written down what the solver remembers. -/
theorem InStep.run (h : InStep m s) (limit : Nat) (calls : List (SolverCall α)) :
    Ensures (s.run limit calls)
      (fun p => InStep (writeDown m (p.2.flatMap (·.changes))) p.1) := by
  induction calls generalizing s m with
  | nil => exact ensures_ok h
  | cons call rest ih =>
      refine Ensures.bind ((h.perform limit call).mono ?_)
      rintro ⟨u, first⟩ hu
      refine Ensures.map ((ih hu).mono ?_)
      rintro ⟨w, others⟩ hw
      rw [List.flatMap_cons, writeDown_append]
      exact hw

theorem inStep_empty (settings : Settings α) : InStep (fun _ => none) (empty settings) where
  ledger := ledger_empty settings
  informed := (variableStable_informed _).empty

/-- After every run the known variables stand in the order in which they were made. -/
theorem ascending_run (settings : Settings α) (limit : Nat) (calls : List (SolverCall α)) :
    Ensures ((empty settings).run limit calls) (fun p => Ascending p.1.unknowns) :=
  ((variableStable_ascending.callStable limit).run (ledger_empty settings)
    variableStable_ascending.empty ascending_flush calls).mono (fun _ hp => hp nofun)

/-- After every run, whatever its answers were and whatever the arithmetic does, a flush
hands out a complete set of changes: with them the map of a client has, for every known
variable, a value that agrees with the variable's.  It hands out each variable at most
once, in the order in which the known variables were made, with its present value, and
its outcome says whether it handed out anything. -/
theorem flush_completes_the_map (settings : Settings α) (limit : Nat)
    {calls : List (SolverCall α)} {answers : List (SolverAnswer α)}
    (hrun : (empty settings).run limit calls = .ok (s, answers)) :
    ∃ u outcome changes, s.perform limit .flush = .ok (u, .updates outcome changes) ∧
      (∀ v, u.hasVariable v = true → ∃ x y, u.value? v = some x ∧
        told (answers ++ [.updates outcome changes]) v = some y ∧ Scalar.Agree y x) ∧
      (changes.map (·.1)).Nodup ∧ (changes.map (·.1)).Sublist s.unknowns.keys ∧
      Ascending s.unknowns ∧
      (∀ e ∈ changes, s.value? e.1 = some e.2 ∧ u.value? e.1 = some e.2) ∧
      (outcome = .updated ↔ changes ≠ []) := by
  have h : InStep (told answers) s := (inStep_empty settings).run limit calls _ hrun
  have hkeys := h.ledger.counted.keys
  refine ⟨s.flush.1, flushOutcome s.pending, s.pending, rfl, ?_,
    (keys_pending_sublist s).nodup hkeys, keys_pending_sublist s,
    ascending_run settings limit calls _ hrun, ?_, ?_⟩
  · intro v hv
    rw [hasVariable, OrderedMap.contains_iff_mem_keys, flush, markReported,
      OrderedMap.keys_mapValues] at hv
    obtain ⟨e, he, rfl⟩ := List.mem_map.mp hv
    obtain ⟨y, hy, hagree, -⟩ := writeDown_pending hkeys h.informed he
    have hget := (OrderedMap.get?_eq_some_iff hkeys).mpr he
    refine ⟨s.symbolValue e.2.symbol, y, ?_, ?_, hagree⟩
    · rw [value?_flush, value?, hget]
      rfl
    · rw [told_append, List.flatMap_singleton]
      exact hy
  · intro e he
    have hvalue := value?_of_mem_pending hkeys he
    exact ⟨hvalue, (value?_flush s e.1).trans hvalue⟩
  · unfold flushOutcome
    cases s.pending <;> simp

/-- A variable that was handed out, collected and made again is handed out again, though
its value is the old one; an addition that is rejected in between makes no difference. -/
theorem flush_completes_the_map_after_collection :
    ∃ (s : Solver Rat) (answers : List (SolverAnswer Rat)),
      (empty .standard).run 9 [
        .add ⟨"width", ⟨[.symbolic ⟨.entity ⟨0⟩, .width⟩ 1], -2⟩, .equalTo, .required⟩, .flush,
        .add ⟨"clash", ⟨[.symbolic ⟨.entity ⟨0⟩, .width⟩ 1], -3⟩, .equalTo, .required⟩,
        .remove ⟨"width", ⟨[.symbolic ⟨.entity ⟨0⟩, .width⟩ 1], -2⟩, .equalTo, .required⟩,
        .add ⟨"height", ⟨[.symbolic ⟨.entity ⟨0⟩, .height⟩ 1], -5⟩, .equalTo, .required⟩,
        .add ⟨"width", ⟨[.symbolic ⟨.entity ⟨0⟩, .width⟩ 1], -2⟩, .equalTo, .required⟩] =
          .ok (s, answers) ∧
      s.hasConstraint ⟨"clash", ⟨[.symbolic ⟨.entity ⟨0⟩, .width⟩ 1], -3⟩, .equalTo,
        .required⟩ = false ∧
      s.pending = [(⟨.entity ⟨0⟩, .height⟩, 5), (⟨.entity ⟨0⟩, .width⟩, 2)] ∧
      ∃ u outcome changes, s.perform 9 .flush = .ok (u, .updates outcome changes) ∧
        ∀ v, u.hasVariable v = true → ∃ x y, u.value? v = some x ∧
          told (answers ++ [.updates outcome changes]) v = some y ∧ Scalar.Agree y x := by
  have hchain : ((empty .standard : Solver Rat).run 9 [
        .add ⟨"width", ⟨[.symbolic ⟨.entity ⟨0⟩, .width⟩ 1], -2⟩, .equalTo, .required⟩, .flush,
        .add ⟨"clash", ⟨[.symbolic ⟨.entity ⟨0⟩, .width⟩ 1], -3⟩, .equalTo, .required⟩,
        .remove ⟨"width", ⟨[.symbolic ⟨.entity ⟨0⟩, .width⟩ 1], -2⟩, .equalTo, .required⟩,
        .add ⟨"height", ⟨[.symbolic ⟨.entity ⟨0⟩, .height⟩ 1], -5⟩, .equalTo, .required⟩,
        .add ⟨"width", ⟨[.symbolic ⟨.entity ⟨0⟩, .width⟩ 1], -2⟩, .equalTo,
          .required⟩]).toOption.any (fun p =>
            !p.1.hasConstraint ⟨"clash", ⟨[.symbolic ⟨.entity ⟨0⟩, .width⟩ 1], -3⟩, .equalTo,
              .required⟩ &&
            decide (p.1.pending =
              [(⟨.entity ⟨0⟩, .height⟩, 5), (⟨.entity ⟨0⟩, .width⟩, 2)])) = true := by
    decide +kernel
  obtain ⟨⟨s, answers⟩, hrun, hrest⟩ := exists_ok_of_any hchain
  obtain ⟨hrejected, hpending⟩ := Bool.and_eq_true_iff.mp hrest
  obtain ⟨u, outcome, changes, hflush, hmap, -⟩ := flush_completes_the_map .standard 9 hrun
  exact ⟨s, answers, hrun, (Bool.not_eq_true' _).mp hrejected, of_decide_eq_true hpending, u,
    outcome, changes, hflush, hmap⟩

end Runs

end Solver
end Tether
