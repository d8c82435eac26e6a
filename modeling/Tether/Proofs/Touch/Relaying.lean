import Mathlib.Algebra.Order.Group.Multiset
import Mathlib.Tactic.Abel
import Tether.Proofs.Solver.Effects
import Tether.Proofs.Touch.Fitting
import Tether.Scalar.Rational
import Tether.Touch.Relay

/-!
# Relaying to a solver

What a listener that relays to a solver does is a list of calls to the solver.  As long
as no call fails, the books of the solver follow what the tracker does: the constraints
are those that were passed on, those that are applied and one for every edit variable,
and the edit variables are at the positions of the active touches.
-/

namespace Tether

open Simplex Stateful

variable {α : Type}

section Calls

/-- The calls to a solver that an event amounts to. -/
def TouchEvent.calls : TouchEvent α → List (SolverCall α)
  | .added cs => cs.map .add
  | .removed cs => cs.map .remove
  | .edited v (.added strength) => [.addEdit v strength]
  | .edited v (.suggested x) => [.suggest v x]
  | .edited v .removed => [.removeEdit v]
  | .sampled _ _ => []

/-- The calls to a solver that something told amounts to. -/
def Telling.calls (tellings : List (Telling α)) : List (SolverCall α) :=
  (tellings.map Telling.event).flatMap TouchEvent.calls

variable [Scalar α]

namespace Solver

/-- A solver carries out calls, and none of them fails. -/
inductive Carries (limit : Nat) : Solver α → List (SolverCall α) → Solver α → Prop
  | nothing (s : Solver α) : Carries limit s [] s
  | call {s u w : Solver α} {first : SolverCall α} {rest : List (SolverCall α)}
      (h : s.perform limit first = .ok (u, .done)) (hrest : Carries limit u rest w) :
      Carries limit s (first :: rest) w

variable {limit : Nat} {s u w : Solver α} {first rest : List (SolverCall α)}

theorem Carries.append (h : Carries limit s first u) (h' : Carries limit u rest w) :
    Carries limit s (first ++ rest) w := by
  induction h with
  | nothing s => exact h'
  | call h hrest ih => exact .call h (ih h')

theorem Carries.exists_of_append (first : List (SolverCall α))
    (h : Carries limit s (first ++ rest) w) :
    ∃ u, Carries limit s first u ∧ Carries limit u rest w := by
  induction first generalizing s with
  | nil => exact ⟨s, .nothing s, h⟩
  | cons call first ih =>
      obtain - | ⟨hcall, hrest⟩ := h
      obtain ⟨u, hfirst, hu⟩ := ih hrest
      exact ⟨u, .call hcall hfirst, hu⟩

theorem Carries.eq_of_nil (h : Carries limit s [] u) : u = s := by
  cases h
  rfl

theorem Carries.of_singleton {call : SolverCall α} (h : Carries limit s [call] u) :
    s.perform limit call = .ok (u, .done) := by
  obtain - | ⟨hcall, hrest⟩ := h
  rw [hrest.eq_of_nil]
  exact hcall

end Solver

end Calls

section Relays

variable [Scalar α] {limit : Nat} {listener : Listener (RelayM α) α}

/-- A listener that passes everything on to a solver, however it finds the values that it
is asked for. -/
structure Listener.Relays (limit : Nat) (listener : Listener (RelayM α) α) : Prop where
  added : ∀ cs, listener.added cs =
    cs.forM (fun c => Relay.call .addConstraint (fun s => s.add limit c))
  removed : ∀ cs, listener.removed cs =
    cs.forM (fun c => Relay.call .removeConstraint (fun s => s.remove limit c))
  edited : listener.edited = Relay.edit limit
  sample : ∀ v r x r', listener.sample v r = .ok (x, r') →
    r'.solver = r.solver ∧ r'.failures = r.failures

theorem Relay.relays_listener (limit : Nat) (fallback : Variable → α) :
    (Relay.listener limit fallback).Relays limit where
  added := fun _ => rfl
  removed := fun _ => rfl
  edited := rfl
  sample := by
    intro v r x r' h
    unfold Relay.listener Relay.sample at h
    dsimp only at h
    split at h <;> · obtain ⟨-, rfl⟩ := Prod.mk.inj (Except.ok.inj h); exact ⟨rfl, rfl⟩

/-- Failures stay on record, and without a further one the solver has carried out calls. -/
def Relay.Follows (limit : Nat) (r : Relay α) (calls : List (SolverCall α)) (r' : Relay α) :
    Prop :=
  r.failures <+: r'.failures ∧
    (r'.failures = r.failures → r.solver.Carries limit calls r'.solver)

namespace Relay

variable {r r' r'' : Relay α} {calls calls' : List (SolverCall α)}

theorem Follows.append (h : r.Follows limit calls r') (h' : r'.Follows limit calls' r'') :
    r.Follows limit (calls ++ calls') r'' := by
  refine ⟨h.1.trans h'.1, fun heq => ?_⟩
  have hfirst : r'.failures = r.failures := by
    refine (h.1.eq_of_length_le ?_).symm
    rw [← heq]
    exact h'.1.length_le
  exact (h.2 hfirst).append (h'.2 (heq.trans hfirst.symm))

/-- Making a call to the solver carries it out or records its failure. -/
theorem meets_call {ε : Type} {wrap : ε → SolverError}
    {f : Solver α → Outcome (Solver α) ε} (call : SolverCall α)
    (hcall : ∀ s : Solver α, s.perform limit call = Solver.answer wrap (f s)) :
    Meets (exec (Relay.call wrap f) r) (fun _ => True) (fun p => r.Follows limit [call] p.2) := by
  refine Meets.map (Listener.meets_of_forall (fun _ _ => trivial) ?_)
  rintro ⟨s, answer⟩ hf
  cases answer with
  | error e => exact ⟨List.prefix_append _ _, fun heq => by simp [note] at heq⟩
  | ok u =>
      refine ⟨List.prefix_rfl, fun _ => .call ?_ (.nothing s)⟩
      rw [hcall, Solver.answer, hf]
      rfl

end Relay

/-- What holds of no call and of one call, and carries over from call to call, holds of
all the calls that a relaying listener makes when it is told something. -/
theorem Listener.Relays.hears_of (h : listener.Relays limit)
    {R : Relay α → List (SolverCall α) → Relay α → Prop}
    (append : ∀ {r r' r'' calls calls'}, R r calls r' → R r' calls' r'' → R r (calls ++ calls') r'')
    (call : ∀ {ε : Type} {wrap : ε → SolverError} {f : Solver α → Outcome (Solver α) ε}
      (call : SolverCall α), (∀ s : Solver α, s.perform limit call = Solver.answer wrap (f s)) →
        ∀ r, Meets (exec (Relay.call wrap f) r) (fun _ => True) (fun p => R r [call] p.2))
    (nothing : ∀ r r', r'.solver = r.solver → r'.failures = r.failures → R r [] r') :
    listener.Hears (fun r es r' => R r (es.flatMap TouchEvent.calls) r') (fun _ => True) where
  nothing := fun r => nothing r r rfl rfl
  more := fun h h' => by
    rw [List.flatMap_append]
    exact append h h'
  added := fun cs r => by
    rw [h.added]
    refine (meets_forM (I := fun before r' => R r (before.map .add) r') cs
      (nothing r r rfl rfl) ?_).mono (fun _ => id) (fun p hp => ?_)
    · intro before c after r' _ hr'
      refine (call (.add c) (fun _ => rfl) r').mono (fun _ => id) (fun p hp => ?_)
      rw [List.map_append]
      exact append hr' hp
    · simpa [TouchEvent.calls] using hp
  removed := fun cs r => by
    rw [h.removed]
    refine (meets_forM (I := fun before r' => R r (before.map .remove) r') cs
      (nothing r r rfl rfl) ?_).mono (fun _ => id) (fun p hp => ?_)
    · intro before c after r' _ hr'
      refine (call (.remove c) (fun _ => rfl) r').mono (fun _ => id) (fun p hp => ?_)
      rw [List.map_append]
      exact append hr' hp
    · simpa [TouchEvent.calls] using hp
  edited := fun v change r => by
    rw [h.edited]
    cases change with
    | added strength => exact call (.addEdit v strength) (fun _ => rfl) r
    | suggested x => exact call (.suggest v x) (fun _ => rfl) r
    | removed => exact call (.removeEdit v) (fun _ => rfl) r
  sample := fun v r => by
    refine Listener.meets_of_forall (fun _ _ => trivial) (fun p hp => ?_)
    obtain ⟨hsolver, hfailures⟩ := h.sample v r p.1 p.2 hp
    exact nothing r p.2 hsolver hfailures

/-- A relaying listener follows what it is told. -/
theorem Listener.Relays.hears (h : listener.Relays limit) :
    listener.Hears (fun r es r' => r.Follows limit (es.flatMap TouchEvent.calls) r')
      (fun _ => True) := by
  refine h.hears_of (R := fun r calls r' => r.Follows limit calls r') Relay.Follows.append
    (fun call hcall _ => Relay.meets_call call hcall) (fun r r' hsolver hfailures => ?_)
  refine ⟨hfailures ▸ List.prefix_rfl, fun _ => ?_⟩
  rw [hsolver]
  exact .nothing _

end Relays

section Balancing

variable [Scalar α]

namespace Solver

/-- The books of a solver are balanced: its constraints are the passed and the applied
ones and those that hold edit variables, and its edit variables have given values. -/
structure Balanced (passed applied : List (Constraint α)) (strength : Strength α)
    (positions : List (Variable × α)) (s : Solver α) : Prop where
  ledger : s.Ledger
  constraints : (↑s.constraints.keys : Multiset (Constraint α)) =
    ↑passed + ↑applied + ↑(s.edits.values.map (·.constraint))
  held : ∀ e ∈ s.edits.entries, ∃ x, e.2.constraint = holding e.1 x strength
  positions : s.edits.entries.map (fun e => (e.1, e.2.constant)) = positions

variable {limit : Nat} {s u : Solver α} {passed passed' applied applied' cs : List (Constraint α)}
  {strength : Strength α} {positions : List (Variable × α)} {c installed : Constraint α}
  {v : Variable}

theorem Carries.added (h : Carries limit s (cs.map .add) u) (hs : s.Ledger) :
    u.Ledger ∧ u.constraints.keys = s.constraints.keys ++ cs ∧ u.edits = s.edits := by
  induction cs generalizing s with
  | nil =>
      rw [h.eq_of_nil]
      exact ⟨hs, (List.append_nil _).symm, rfl⟩
  | cons c rest ih =>
      obtain - | ⟨hcall, hrest⟩ := h
      obtain ⟨hledger, hkeys, hedits⟩ := hs.done_add hcall
      obtain ⟨hledger', hkeys', hedits'⟩ := ih hrest hledger
      refine ⟨hledger', ?_, hedits'.trans hedits⟩
      rw [hkeys', hkeys, List.append_assoc]
      rfl

/-- Added constraints may be counted as passed or as applied. -/
theorem Balanced.add (h : s.Balanced passed applied strength positions)
    (hcarries : Carries limit s (cs.map .add) u)
    (hcs : (↑passed' + ↑applied' : Multiset (Constraint α)) = ↑passed + ↑applied + ↑cs) :
    u.Balanced passed' applied' strength positions := by
  obtain ⟨hledger, hkeys, hedits⟩ := hcarries.added h.ledger
  refine ⟨hledger, ?_, hedits ▸ h.held, hedits ▸ h.positions⟩
  rw [hkeys, hedits, ← Multiset.coe_add, h.constraints, hcs]
  abel

/-- A removed constraint was counted as passed or as applied. -/
theorem Balanced.remove (h : s.Balanced passed applied strength positions)
    (hdone : s.perform limit (.remove c) = .ok (u, .done)) (hc : (installed == c) = true)
    (hcs : (↑passed + ↑applied : Multiset (Constraint α)) = installed ::ₘ (↑passed' + ↑applied')) :
    u.Balanced passed' applied' strength positions := by
  obtain ⟨hledger, -, hconstraints, hedits⟩ := h.ledger.done_remove hdone
  have hkeys := h.constraints
  rw [hcs, Multiset.cons_add] at hkeys
  obtain ⟨hrest, hothers⟩ := h.ledger.distinct.coe_eraseP hkeys hc
  have hsame : u.edits = s.edits := by
    rw [hedits]
    refine congrArg OrderedMap.mk (List.filter_eq_self.mpr (fun e he => ?_))
    have hmem : e.2.constraint ∈ s.edits.values.map (·.constraint) :=
      List.mem_map_of_mem (List.mem_map_of_mem he)
    have := hothers e.2.constraint (Multiset.mem_add.mpr (.inr hmem))
    simp [this]
  refine ⟨hledger, ?_, hsame ▸ h.held, hsame ▸ h.positions⟩
  rw [hconstraints, OrderedMap.keys_erase, hrest, hsame]

/-- Everything that is applied can be removed. -/
theorem Balanced.removeAll (h : s.Balanced passed applied strength positions)
    (hcarries : Carries limit s (applied.map .remove) u) :
    u.Balanced passed [] strength positions := by
  induction applied generalizing s with
  | nil =>
      rw [hcarries.eq_of_nil]
      exact h
  | cons c rest ih =>
      obtain - | ⟨hcall, hrest⟩ := hcarries
      refine ih (h.remove hcall (Constraint.beq_refl c) ?_) hrest
      rw [← Multiset.cons_coe, Multiset.add_cons]

/-- A new edit variable is given a value. -/
theorem Balanced.place (h : s.Balanced passed applied (.clip strength.value) positions) {x : α}
    (hcarries : Carries limit s [.addEdit v strength, .suggest v x] u) :
    u.Balanced passed applied (.clip strength.value) (positions ++ [(v, x)]) := by
  obtain - | ⟨hadd, hrest⟩ := hcarries
  obtain ⟨hw, hv, tag, y, hkeys, hentries⟩ := h.ledger.done_addEdit hadd
  obtain ⟨hledger, hconstraints, hedits⟩ := hw.done_suggest hrest.of_singleton
  have hu : u.edits.entries = s.edits.entries ++
      [(v, ⟨tag, holding v y (.clip strength.value), x⟩)] := by
    have hsame : s.edits.entries.map (fun e =>
        if e.1 == v then (e.1, { e.2 with constant := x }) else e) = s.edits.entries := by
      refine (List.map_congr_left (fun e he => ?_)).trans (List.map_id _)
      have hne := List.any_eq_false.mp hv e he
      rw [if_neg hne]
      rfl
    rw [hedits, OrderedMap.entries_modify hw.held.keys, hentries, List.map_append, hsame]
    simp
  refine ⟨hledger, ?_, ?_, ?_⟩
  · rw [hconstraints, hkeys, OrderedMap.values, hu, ← Multiset.coe_add, h.constraints]
    simp only [List.map_append, List.map_cons, List.map_nil, ← Multiset.coe_add,
      OrderedMap.values]
    abel
  · intro e he
    rw [hu] at he
    rcases List.mem_append.mp he with he | he
    · exact h.held e he
    · rw [List.mem_singleton.mp he]
      exact ⟨y, rfl⟩
  · rw [hu, List.map_append, h.positions]
    rfl

/-- An edit variable is given another value. -/
theorem Balanced.suggest (h : s.Balanced passed applied strength positions) {x : α}
    (hdone : s.perform limit (.suggest v x) = .ok (u, .done)) :
    u.Balanced passed applied strength
      (positions.map (fun e => if e.1 == v then (e.1, x) else e)) := by
  obtain ⟨hledger, hconstraints, hedits⟩ := h.ledger.done_suggest hdone
  have hu : u.edits.entries = s.edits.entries.map (fun e =>
      if e.1 == v then (e.1, { e.2 with constant := x }) else e) := by
    rw [hedits, OrderedMap.entries_modify h.ledger.held.keys]
  refine ⟨hledger, ?_, ?_, ?_⟩
  · rw [hconstraints, h.constraints, OrderedMap.values, OrderedMap.values, hu]
    congr 2
    simp only [List.map_map]
    refine List.map_congr_left (fun e _ => ?_)
    simp only [Function.comp_apply]
    split <;> rfl
  · intro e he
    rw [hu] at he
    obtain ⟨d, hd, rfl⟩ := List.mem_map.mp he
    have := h.held d hd
    split <;> exact this
  · rw [hu, ← h.positions, List.map_map, List.map_map]
    refine List.map_congr_left (fun e _ => ?_)
    simp only [Function.comp_apply]
    split <;> rfl

/-- An edit variable is removed. -/
theorem Balanced.removeEdit (h : s.Balanced passed applied strength positions)
    (hdone : s.perform limit (.removeEdit v) = .ok (u, .done)) :
    u.Balanced passed applied strength (positions.filter (fun e => !(e.1 == v))) := by
  obtain ⟨hledger, edit, hget, hconstraints, hedits⟩ := h.ledger.done_removeEdit hdone
  obtain ⟨e, hfind, rfl⟩ := Option.map_eq_some_iff.mp hget
  obtain ⟨before, after, hentries, herase⟩ := OrderedMap.exists_append_of_find? hfind
  have hkeys := h.constraints
  rw [OrderedMap.values, hentries, List.map_append, List.map_append, List.map_cons, List.map_cons,
    ← Multiset.coe_add, ← Multiset.cons_coe, Multiset.add_cons, Multiset.add_cons] at hkeys
  obtain ⟨hrest, hothers⟩ := h.ledger.distinct.coe_eraseP hkeys (Constraint.beq_refl _)
  have hsame : u.edits = s.edits.erase v := by
    rw [hedits]
    refine congrArg OrderedMap.mk (List.filter_eq_self.mpr (fun d hd => ?_))
    rw [herase] at hd
    have hmem : d.2.constraint ∈ ((before ++ after).map (·.2)).map (·.constraint) :=
      List.mem_map_of_mem (List.mem_map_of_mem hd)
    rw [List.map_append, List.map_append] at hmem
    have := hothers d.2.constraint
      (Multiset.mem_add.mpr (.inr (by rw [Multiset.coe_add]; exact hmem)))
    simp [this]
  refine ⟨hledger, ?_, ?_, ?_⟩
  · rw [hconstraints, OrderedMap.keys_erase, hrest, hsame, OrderedMap.values, herase,
      List.map_append, List.map_append, ← Multiset.coe_add]
  · rw [hsame]
    exact fun d hd => h.held d (OrderedMap.mem_of_mem_erase hd)
  · rw [hsame, OrderedMap.entries_erase h.ledger.held.keys, ← h.positions, List.filter_map]
    rfl

end Solver

end Balancing

section Told

variable {first rest : List (Telling α)}

theorem Telling.calls_append : calls (first ++ rest) = calls first ++ calls rest := by
  simp [calls]

theorem Telling.calls_reading (values : List (Variable × α)) : calls (reading values) = [] := by
  rw [calls, event_reading]
  exact List.flatMap_eq_nil_iff.mpr (fun e he => by
    obtain ⟨r, -, rfl⟩ := List.mem_map.mp he
    rfl)

theorem Telling.calls_adding (mentions : List (Mention α)) :
    calls (adding mentions) = (mentions.map (·.constraint)).map .add := by
  cases mentions with
  | nil => rfl
  | cons mention others => exact List.append_nil _

theorem Telling.calls_removing (mentions : List (Mention α)) :
    calls (removing mentions) = (mentions.map (·.constraint)).map .remove := by
  cases mentions with
  | nil => rfl
  | cons mention others => exact List.append_nil _

end Told

section Passing

variable [Scalar α]

/-- The registered constraints without proxies after one constraint is unregistered. -/
def Constraint.takeBack (passed : List (Constraint α)) (c : Constraint α) :
    List (Constraint α) :=
  if c.hasProxies then passed else passed.eraseP (fun r => r == c)

/-- The registered constraints without proxies after a call. -/
def TrackerCall.passes (passed : List (Constraint α)) : TrackerCall α → List (Constraint α)
  | .register cs => passed ++ cs.filter (fun c => !c.hasProxies)
  | .unregister cs => cs.foldl Constraint.takeBack passed
  | _ => passed

/-- A call unregisters constraints without proxies only while they are registered. -/
def TrackerCall.TakesPassed (passed : List (Constraint α)) : TrackerCall α → Prop
  | .unregister cs => ∀ before c after, cs = before ++ c :: after → c.hasProxies = false →
      (before.foldl Constraint.takeBack passed).any (fun r => r == c) = true
  | _ => True

end Passing

namespace Tracker

section Positions

variable {t : Tracker α}

/-- The variables of the active touches at their positions. -/
def positions (t : Tracker α) : List (Variable × α) :=
  t.activeTouches.flatMap (·.coordinates)

theorem positions_joined (t : Tracker α) (points : List (TouchPoint α)) :
    (t.joined points).positions = t.positions ++ points.flatMap (·.coordinates) := by
  simp [positions, activeTouches, joined, List.flatMap_map]

/-- A touch that moves moves both of its variables. -/
theorem positions_moved (ht : t.touches.keys.Nodup) (p : TouchPoint α) :
    (t.moved [p]).positions = (t.positions.map (fun e =>
      if e.1 == .ofTouch p.id .positionX then (e.1, p.x) else e)).map (fun e =>
        if e.1 == .ofTouch p.id .positionY then (e.1, p.y) else e) := by
  unfold positions activeTouches moved
  simp only [List.foldl_cons, List.foldl_nil]
  rw [OrderedMap.entries_modify ht]
  simp only [List.map_map, List.flatMap_map, List.map_flatMap]
  refine List.flatMap_congr (fun e _ => ?_)
  by_cases he : e.1 = p.id
  · simp [TouchPoint.coordinates, he, Variable.ofTouch]
  · simp [TouchPoint.coordinates, he, Variable.ofTouch]

/-- A touch that leaves takes both of its variables with it. -/
theorem positions_erase (ht : t.touches.keys.Nodup) (id : TouchId) :
    positions { t with touches := t.touches.erase id } =
      (t.positions.filter (fun e => !(e.1 == .ofTouch id .positionX))).filter
        (fun e => !(e.1 == .ofTouch id .positionY)) := by
  unfold positions activeTouches
  rw [OrderedMap.entries_erase ht]
  generalize t.touches.entries = entries
  induction entries with
  | nil => rfl
  | cons e rest ih =>
      rw [List.map_cons, List.flatMap_cons, List.filter_append, List.filter_append, ← ih]
      by_cases he : e.1 = id
      · simp [TouchPoint.coordinates, he, Variable.ofTouch]
      · simp [TouchPoint.coordinates, he, Variable.ofTouch]

/-- What holds before touches move, and is kept when an active touch moves and its position
is told, holds after they have moved. -/
theorem moved_induction {motive : Tracker α → List (Telling α) → Prop}
    (ht : t.touches.keys.Nodup) (start : motive t [])
    (step : ∀ (u : Tracker α) told (p : TouchPoint α), u.touches.keys.Nodup →
      u.touches.contains p.id = true → motive u told →
        motive (u.moved [p]) (told ++ Telling.suggestion p))
    (points : List (TouchPoint α)) :
    motive (t.moved points)
      ((points.filter (fun p => t.touches.contains p.id)).flatMap Telling.suggestion) := by
  rw [← List.nil_append (List.flatMap _ _)]
  generalize ([] : List (Telling α)) = told at start ⊢
  induction points generalizing t told with
  | nil =>
      rw [List.filter_nil, List.flatMap_nil, List.append_nil]
      exact start
  | cons p rest ih =>
      have hkeys := keys_moved t [p]
      have hcontains : ∀ id, (t.moved [p]).touches.contains id = t.touches.contains id := by
        intro id
        rw [OrderedMap.contains_eq_any_keys, hkeys, ← OrderedMap.contains_eq_any_keys]
      have hsplit : t.moved (p :: rest) = (t.moved [p]).moved rest := rfl
      rw [hsplit]
      by_cases hp : t.touches.contains p.id = true
      · have hrest := ih (hkeys ▸ ht) _ (step t told p ht hp start)
        rw [List.filter_cons_of_pos (p := fun p : TouchPoint α => t.touches.contains p.id) hp,
          List.flatMap_cons, ← List.append_assoc]
        simpa only [hcontains] using hrest
      · have hsame : t.moved [p] = t := by
          have := OrderedMap.modify_of_not_contains (Bool.not_eq_true _ ▸ hp)
            (fun _ => (⟨p.x, p.y⟩ : Position α))
          unfold moved
          rw [List.foldl_cons, List.foldl_nil, this]
        rw [List.filter_cons_of_neg (p := fun p : TouchPoint α => t.touches.contains p.id) hp,
          hsame]
        exact ih ht told start

end Positions

section Agreeing

variable [Scalar α] {t u : Tracker α} {s s' : Solver α} {limit : Nat}
  {passed : List (Constraint α)} {tellings : List (Telling α)} {call : TrackerCall α}

/-- A solver agrees with a tracker about what is applied and where the touches are. -/
def Agrees (passed : List (Constraint α)) (t : Tracker α) (s : Solver α) : Prop :=
  s.Balanced passed t.applied.values (.clip t.settings.touchStrength.value) t.positions

theorem Applies.agrees (h : t.Applies tellings u) (hs : Agrees passed t s)
    (hcarries : s.Carries limit (Telling.calls tellings) s') : Agrees passed u s' := by
  obtain ⟨hsource, hform⟩ := h
  rename_i values made
  have hmade : (made.map (fun e => Mention.formed ⟨e.1, e.2, t.touches.keys⟩)).map
      (·.constraint) = made.map (·.2) := by
    rw [List.map_map]
    rfl
  rw [Telling.calls_append, Telling.calls_reading, Telling.calls_adding, List.nil_append,
    hmade] at hcarries
  refine Solver.Balanced.add hs hcarries ?_
  simp only [OrderedMap.values, List.map_append, ← Multiset.coe_add, Multiset.add_assoc]

/-- A constraint without proxies that is taken back is removed. -/
theorem agrees_takeBack {c : Constraint α} (hs : Agrees passed t s) (hc : c.hasProxies = false)
    (hpassed : passed.any (fun r => r == c) = true) (hcarries : s.Carries limit [.remove c] s') :
    Agrees (Constraint.takeBack passed c) t s' := by
  obtain ⟨r, hr, hrc⟩ := List.any_eq_true.mp hpassed
  obtain ⟨installed, before, after, -, hinstalled, heq, herase⟩ :=
    List.exists_of_eraseP (p := fun r => r == c) hr hrc
  refine Solver.Balanced.remove hs hcarries.of_singleton hinstalled ?_
  rw [Constraint.takeBack, if_neg (by simp [hc]), herase, heq, ← Multiset.coe_add,
    ← Multiset.coe_add, ← Multiset.cons_coe, Multiset.add_cons, Multiset.cons_add]

/-- The concrete form of a constraint that is released is removed, if it is applied. -/
theorem agrees_released {c : Constraint α} (hs : Agrees passed t s)
    (hcarries : s.Carries limit
      ((((t.form? c).toList.map Mention.formed).map (·.constraint)).map .remove) s') :
    Agrees passed (t.released c) s' := by
  unfold form? at hcarries
  cases hfind : t.applied.find? c with
  | none =>
      rw [hfind] at hcarries
      have herase : t.applied.erase c = t.applied :=
        congrArg OrderedMap.mk (List.eraseP_of_forall_not (List.find?_eq_none.mp hfind))
      have hreleased : (t.released c).applied = t.applied := herase
      rw [hcarries.eq_of_nil]
      unfold Agrees
      rw [hreleased]
      exact hs
  | some e =>
      rw [hfind] at hcarries
      obtain ⟨before, after, hentries, herase⟩ := OrderedMap.exists_append_of_find? hfind
      refine Solver.Balanced.remove hs hcarries.of_singleton (Constraint.beq_refl _) ?_
      have hvalues : (t.released c).applied.values = before.map (·.2) ++ after.map (·.2) := by
        rw [← List.map_append, ← herase]
        rfl
      rw [hvalues, OrderedMap.values, hentries, List.map_append, List.map_cons,
        ← Multiset.coe_add, ← Multiset.coe_add, ← Multiset.cons_coe, Multiset.add_cons,
        Multiset.add_cons]
      rfl

theorem Withdraws.agrees {cs : List (Constraint α)} {mentions : List (Mention α)}
    (h : t.Withdraws cs mentions u) (hpassed : (TrackerCall.unregister cs).TakesPassed passed)
    (hs : Agrees passed t s)
    (hcarries : s.Carries limit ((mentions.map (·.constraint)).map .remove) s') :
    Agrees (cs.foldl Constraint.takeBack passed) u s' := by
  induction h generalizing s' with
  | nothing =>
      rw [hcarries.eq_of_nil]
      exact hs
  | @passed cs mentions u c h hc ih =>
      rw [List.map_append, List.map_append] at hcarries
      obtain ⟨w, hbefore, hlast⟩ := hcarries.exists_of_append _
      have hw := ih (fun before d after heq => hpassed before d (after ++ [c]) (by simp [heq]))
        hbefore
      rw [List.foldl_append, List.foldl_cons, List.foldl_nil]
      exact agrees_takeBack hw hc (hpassed cs c [] rfl hc) hlast
  | @released cs mentions u c h hc hr ih =>
      rw [List.map_append, List.map_append] at hcarries
      obtain ⟨w, hbefore, hlast⟩ := hcarries.exists_of_append _
      have hw := ih (fun before d after heq => hpassed before d (after ++ [c]) (by simp [heq]))
        hbefore
      rw [List.foldl_append, List.foldl_cons, List.foldl_nil, Constraint.takeBack, if_pos hc]
      exact agrees_released hw hlast

theorem agrees_retraction (hs : Agrees passed t s)
    (hcarries : s.Carries limit (Telling.calls t.retraction) s') :
    Agrees passed { t with applied := .empty } s' := by
  have hforms : (t.forms.map Mention.formed).map (·.constraint) = t.applied.values := by
    simp [forms, Function.comp_def, Mention.constraint, OrderedMap.values]
  rw [retraction, Telling.calls_removing, hforms] at hcarries
  exact Solver.Balanced.removeAll hs hcarries

theorem agrees_joined (hs : Agrees passed t s) (points : List (TouchPoint α))
    (happlied : t.applied = .empty)
    (hcarries : s.Carries limit (Telling.calls
      (points.flatMap (Telling.arrival t.settings.touchStrength))) s') :
    Agrees passed (t.joined points) s' := by
  unfold Agrees at hs ⊢
  rw [positions_joined]
  rw [happlied] at hs
  show s'.Balanced passed [] (.clip t.settings.touchStrength.value) _
  generalize t.positions = positions at hs ⊢
  induction points generalizing s positions with
  | nil =>
      rw [hcarries.eq_of_nil, List.flatMap_nil, List.append_nil]
      exact hs
  | cons p rest ih =>
      rw [List.flatMap_cons, Telling.calls_append] at hcarries
      obtain ⟨w, hfirst, hrest⟩ := hcarries.exists_of_append _
      obtain ⟨w', hx, hy⟩ := Solver.Carries.exists_of_append [_, _] hfirst
      rw [List.flatMap_cons, ← List.append_assoc]
      refine ih hrest _ ?_
      have := (hs.place hx).place hy
      rwa [List.append_assoc] at this

theorem agrees_moved (hs : Agrees passed t s) (ht : t.touches.keys.Nodup)
    (points : List (TouchPoint α))
    (hcarries : s.Carries limit (Telling.calls
      ((points.filter (fun p => t.touches.contains p.id)).flatMap Telling.suggestion)) s') :
    Agrees passed (t.moved points) s' := by
  refine moved_induction (motive := fun u told => ∀ s', s.Carries limit (Telling.calls told) s' →
    Agrees passed u s') ht ?_ ?_ points s' hcarries
  · intro s' hnone
    rw [hnone.eq_of_nil]
    exact hs
  · intro u told p hu _ ih s' hmoved
    rw [Telling.calls_append] at hmoved
    obtain ⟨w, hfirst, hlast⟩ := hmoved.exists_of_append _
    obtain ⟨w', hx, hy⟩ := Solver.Carries.exists_of_append [_] hlast
    have := (Solver.Balanced.suggest (ih w hfirst) hx.of_singleton).suggest hy.of_singleton
    unfold Agrees
    rw [positions_moved hu]
    exact this

theorem agrees_left (hs : Agrees passed t s) (happlied : t.applied = .empty)
    (ht : t.touches.keys.Nodup) (ids : List TouchId)
    (hcarries : s.Carries limit (Telling.calls (ids.flatMap Telling.departure)) s') :
    Agrees passed (t.left ids) s' := by
  induction ids generalizing t s with
  | nil =>
      rw [hcarries.eq_of_nil, left, ← happlied]
      exact hs
  | cons id rest ih =>
      rw [List.flatMap_cons, Telling.calls_append] at hcarries
      obtain ⟨w, hfirst, hrest⟩ := hcarries.exists_of_append _
      obtain ⟨w', hx, hy⟩ := Solver.Carries.exists_of_append [_] hfirst
      have hw := (Solver.Balanced.removeEdit hs hx.of_singleton).removeEdit hy.of_singleton
      rw [← positions_erase ht] at hw
      have hnodup : (t.touches.erase id).keys.Nodup := by
        rw [OrderedMap.keys_erase]
        exact ht.sublist List.eraseP_sublist
      exact ih (t := { t with touches := t.touches.erase id }) hw happlied hnodup hrest

theorem agrees_passing (hs : Agrees passed t s) (cs : List (Constraint α))
    (hcarries : s.Carries limit (Telling.calls (Telling.adding (cs.map .passed))) s') :
    Agrees (passed ++ cs) t s' := by
  have hcs : (cs.map Mention.passed).map (·.constraint) = cs := by
    simp [Mention.constraint, Function.comp_def]
  rw [Telling.calls_adding, hcs] at hcarries
  refine Solver.Balanced.add hs hcarries ?_
  rw [← Multiset.coe_add]
  abel

/-- When a call tells a solver what it does and nothing fails, the two agree again. -/
theorem Tells.agrees (h : t.Tells call tellings u) (ht : t.Orderly) (hs : Agrees passed t s)
    (hpassed : call.TakesPassed passed)
    (hcarries : s.Carries limit (Telling.calls tellings) s') :
    Agrees (call.passes passed) u s' := by
  cases h with
  | @register cs _ _ distinct h =>
      rw [Telling.calls_append] at hcarries
      obtain ⟨w, hfirst, hrest⟩ := hcarries.exists_of_append _
      exact h.agrees (agrees_passing hs _ hfirst) hrest
  | unregister h =>
      rw [Telling.calls_removing] at hcarries
      exact h.agrees hpassed hs hcarries
  | beginNone =>
      rw [hcarries.eq_of_nil]
      exact hs
  | begin some distinct h =>
      rw [Telling.calls_append, Telling.calls_append] at hcarries
      obtain ⟨w, hfirst, hrest⟩ := hcarries.exists_of_append _
      obtain ⟨w', hretract, harrive⟩ := hfirst.exists_of_append _
      exact h.agrees (agrees_joined (agrees_retraction hs hretract) _ rfl harrive) hrest
  | move => exact agrees_moved hs ht.touches _ hcarries
  | endNone hcall none =>
      rw [hcarries.eq_of_nil]
      rcases hcall with rfl | rfl <;> exact hs
  | ended hcall some h =>
      rw [Telling.calls_append, Telling.calls_append] at hcarries
      obtain ⟨w, hfirst, hrest⟩ := hcarries.exists_of_append _
      obtain ⟨w', hretract, hdepart⟩ := hfirst.exists_of_append _
      have hu := h.agrees (agrees_left (agrees_retraction hs hretract) rfl ht.touches _ hdepart)
        hrest
      rcases hcall with rfl | rfl <;> exact hu

theorem Recounts.agrees {calls : List (TrackerCall α)} {chapters : List (List (Telling α))}
    (h : t.Recounts calls chapters u) (ht : t.Orderly) (hs : Agrees passed t s)
    (hpassed : ∀ before call after, calls = before ++ call :: after →
      call.TakesPassed (before.foldl TrackerCall.passes passed))
    (hcarries : s.Carries limit (Telling.calls chapters.flatten) s') :
    Agrees (calls.foldl TrackerCall.passes passed) u s' := by
  induction h generalizing s' with
  | nothing =>
      rw [hcarries.eq_of_nil]
      exact hs
  | @call calls chapters u call tellings v h hcall ih =>
      rw [List.flatten_append, Telling.calls_append] at hcarries
      obtain ⟨w, hfirst, hlast⟩ := hcarries.exists_of_append _
      have hw := ih (fun before d after heq => hpassed before d (after ++ [call]) (by simp [heq]))
        hfirst
      rw [List.flatten_cons, List.flatten_nil, List.append_nil] at hlast
      rw [List.foldl_append]
      exact hcall.agrees (h.orderly ht) hw (hpassed calls call [] rfl) hlast

theorem agrees_empty (settings settings' : Settings α) :
    Agrees [] (empty settings) (Solver.empty settings') where
  ledger := Solver.ledger_empty settings'
  constraints := rfl
  held := by simp [Solver.empty, OrderedMap.empty]
  positions := rfl

end Agreeing

section Results

variable [Scalar α]

/-- As long as no failure is recorded and constraints without proxies are unregistered
only while they are registered, a tracker and the solver that it is relayed to agree
after every run: the solver has exactly the registered constraints without proxies, the
applied concrete forms, and one constraint for every edit variable; and its edit variables
are those of the active touches, at their positions.  When nothing is left, the solver
is left with nothing. -/
theorem tracker_and_solver_agree (settings settings' : Settings α) (limit : Nat)
    {listener : Listener (RelayM α) α} (hrelays : listener.Relays limit)
    (calls : List (TrackerCall α)) {t : Tracker α} {r : Relay α}
    (hrun : ((empty settings).run listener calls).run (Relay.ofSolver (Solver.empty settings')) =
      .ok (t, r))
    (hfailures : r.failures = [])
    (hpassed : ∀ before call after, calls = before ++ call :: after →
      call.TakesPassed (before.foldl TrackerCall.passes [])) :
    r.solver.constraints.keys.Perm (calls.foldl TrackerCall.passes [] ++ t.applied.values ++
      r.solver.edits.values.map (·.constraint)) ∧
    Constraint.Distinct r.solver.constraints.keys ∧
    (∀ e ∈ r.solver.edits.entries, ∃ x, e.2.constraint =
      Solver.holding e.1 x (.clip settings.touchStrength.value)) ∧
    r.solver.edits.entries.map (fun e => (e.1, e.2.constant)) =
      t.activeTouches.flatMap (·.coordinates) ∧
    (t.touches.isEmpty = true → t.registered = [] → calls.foldl TrackerCall.passes [] = [] →
      r.solver.constraints.isEmpty = true ∧ r.solver.edits.isEmpty = true) := by
  have hempty : (empty settings : Tracker α).Orderly := orderly_empty settings
  obtain ⟨chapters, ⟨-, hfollows⟩, h, -⟩ := exists_recounts hrelays.hears hempty calls hrun
  have hu : Agrees _ t r.solver :=
    h.agrees hempty (agrees_empty settings settings') hpassed (hfollows hfailures)
  have ht := h.orderly hempty
  have hsettings : t.settings = settings := h.settings_eq
  refine ⟨?_, hu.ledger.distinct, ?_, hu.positions, fun htouches hregistered hplain => ?_⟩
  · rw [← Multiset.coe_eq_coe, hu.constraints, ← Multiset.coe_add, ← Multiset.coe_add]
  · rw [← hsettings]
    exact hu.held
  · have hedits : r.solver.edits.entries = [] := by
      have hpositions := hu.positions
      rw [positions, activeTouches, List.isEmpty_iff.mp htouches] at hpositions
      exact List.map_eq_nil_iff.mp hpositions
    have happlied : t.applied.entries = [] := by
      have hkeys := ht.applied
      rw [hregistered] at hkeys
      exact List.map_eq_nil_iff.mp hkeys
    have hkeys := hu.constraints
    rw [hplain, OrderedMap.values, OrderedMap.values, hedits, happlied] at hkeys
    refine ⟨List.isEmpty_iff.mpr ?_, List.isEmpty_iff.mpr hedits⟩
    exact List.map_eq_nil_iff.mp ((Multiset.coe_eq_zero _).mp hkeys)

/-- A touch pulls at a width, moves, and the bound of the width is lifted: the solver is
left with the pull and the two constraints that hold the touch, at its last position. -/
theorem pull_and_position_remain :
    ∃ (t : Tracker Rat) (r : Relay Rat),
      ((empty .standard).run (Relay.listener 9 (fun _ => 0))
        [.register [⟨"floor", ⟨[.symbolic ⟨.entity ⟨0⟩, .width⟩ 1], -2⟩, .greaterOrEqual,
            .required⟩, ⟨"pull", ⟨[.symbolic ⟨.proxy 0, .positionX⟩ 1,
              .symbolic ⟨.entity ⟨0⟩, .width⟩ (-1)], 0⟩, .equalTo, .strong⟩],
          .beginTouches [⟨⟨7⟩, 1, 2⟩], .moveTouches [⟨⟨7⟩, 5, 6⟩],
          .unregister [⟨"floor", ⟨[.symbolic ⟨.entity ⟨0⟩, .width⟩ 1], -2⟩, .greaterOrEqual,
            .required⟩]]).run (Relay.ofSolver (Solver.empty .standard)) = .ok (t, r) ∧
      r.failures = [] ∧
      r.solver.constraints.keys.Perm (t.applied.values ++
        r.solver.edits.values.map (·.constraint)) ∧
      r.solver.edits.entries.map (fun e => (e.1, e.2.constant)) =
        [(.ofTouch ⟨7⟩ .positionX, 5), (.ofTouch ⟨7⟩ .positionY, 6)] := by
  have hsome : (((empty .standard).run (Relay.listener 9 (fun _ => 0))
      [.register [⟨"floor", ⟨[.symbolic ⟨.entity ⟨0⟩, .width⟩ 1], -2⟩, .greaterOrEqual,
          .required⟩, ⟨"pull", ⟨[.symbolic ⟨.proxy 0, .positionX⟩ 1,
            .symbolic ⟨.entity ⟨0⟩, .width⟩ (-1)], 0⟩, .equalTo, .strong⟩],
        .beginTouches [⟨⟨7⟩, 1, 2⟩], .moveTouches [⟨⟨7⟩, 5, 6⟩],
        .unregister [⟨"floor", ⟨[.symbolic ⟨.entity ⟨0⟩, .width⟩ 1], -2⟩, .greaterOrEqual,
          .required⟩]]).run (Relay.ofSolver (Solver.empty .standard))).toOption.any (fun p =>
            p.2.failures.isEmpty && p.1.activeTouches == [(⟨⟨7⟩, 5, 6⟩ : TouchPoint Rat)]) =
        true := by
    decide +kernel
  obtain ⟨⟨t, r⟩, hrun, hrest⟩ := exists_ok_of_any hsome
  obtain ⟨hfailures, htouches⟩ := Bool.and_eq_true_iff.mp hrest
  have hfailures : r.failures = [] := List.isEmpty_iff.mp hfailures
  obtain ⟨hperm, -, -, hpositions, -⟩ := tracker_and_solver_agree .standard .standard 9
    (Relay.relays_listener 9 (fun _ => 0)) _ hrun hfailures (fun before call after heq => by
      rcases before with - | ⟨a, - | ⟨b, - | ⟨c, - | ⟨d, before⟩⟩⟩⟩ <;>
        simp only [List.nil_append, List.cons_append, List.cons.injEq] at heq
      · obtain ⟨rfl, -⟩ := heq
        trivial
      · obtain ⟨-, rfl, -⟩ := heq
        trivial
      · obtain ⟨-, -, rfl, -⟩ := heq
        trivial
      · obtain ⟨rfl, rfl, rfl, rfl, -⟩ := heq
        intro before c after h _
        rcases before with - | ⟨a, before⟩ <;> simp at h
        obtain ⟨rfl, -⟩ := h
        rfl
      · simp at heq)
  refine ⟨t, r, hrun, hfailures, hperm, hpositions.trans ?_⟩
  rw [beq_iff_eq.mp htouches]
  rfl

end Results

end Tracker

end Tether
