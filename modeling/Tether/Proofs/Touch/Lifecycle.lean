import Mathlib.Data.List.Chain
import Tether.Proofs.Touch.Relaying

/-!
# The lives of edit variables

A listener sees the variables of a touch come and go.  In what it is told of one variable,
life follows life: the variable comes to be, takes one value or more, and is removed.  It is
alive exactly while its touch is active, and the value that it took last is the position of
the touch.

A call that ends touches looks up which of them are active once, before it ends the first.
If it lists a touch twice, the variables of that touch are removed twice; this is the only
way in which a life ends more than once.
-/

namespace Tether

open Simplex Stateful

variable {α : Type}

section Lives

/-- One life of an edit variable. -/
structure Life (α : Type) where
  /-- The strength at which it came to be. -/
  strength : Strength α
  /-- The values that it took before the last one. -/
  earlier : List α
  /-- The value that it took last. -/
  last : α
  /-- How often it was removed after it was gone. -/
  extra : Nat

namespace Life

/-- What is told of a life before it ends. -/
def lived (l : Life α) : List (EditChange α) :=
  .added l.strength :: (l.earlier ++ [l.last]).map .suggested

/-- What is told of a life. -/
def changes (l : Life α) : List (EditChange α) :=
  l.lived ++ List.replicate (l.extra + 1) .removed

end Life

namespace EditChange

/-- Whether a variable is there after a change. -/
def leaves (there : Bool) : EditChange α → Bool
  | .added _ => true
  | .suggested _ => there
  | .removed => false

/-- Whether a variable is there after all that happened to it. -/
def isAdded (changes : List (EditChange α)) : Bool :=
  changes.foldl leaves false

/-- The value that a change suggests. -/
def suggestion? : EditChange α → Option α
  | .suggested x => some x
  | _ => none

/-- The value that was suggested last. -/
def lastSuggested? (changes : List (EditChange α)) : Option α :=
  (changes.filterMap suggestion?).getLast?

end EditChange

open EditChange

/-- A list of changes tells of lives one after another; after it the variable has a value
if it is alive.  Under some condition no life ends more than once. -/
inductive Story (once : Prop) : Option α → List (EditChange α) → Prop
  | ended (lives : List (Life α)) (hlives : once → ∀ l ∈ lives, l.extra = 0) :
      Story once none (lives.flatMap Life.changes)
  | living (lives : List (Life α)) (hlives : once → ∀ l ∈ lives, l.extra = 0) (l : Life α) :
      Story once (some l.last) (lives.flatMap Life.changes ++ l.lived)

variable {once once' : Prop} {changes : List (EditChange α)} {value : Option α} {x : α}

theorem Story.mono (h : Story once value changes) (hsub : once' → once) :
    Story once' value changes := by
  cases h with
  | ended lives hlives => exact .ended lives (fun ho => hlives (hsub ho))
  | living lives hlives l => exact .living lives (fun ho => hlives (hsub ho)) l

theorem Story.begin (h : Story once none changes) (strength : Strength α) (x : α) :
    Story once (some x) (changes ++ [.added strength, .suggested x]) := by
  obtain ⟨lives, hlives⟩ := h
  exact .living lives hlives ⟨strength, [], x, 0⟩

theorem Story.suggest (h : Story once (some x) changes) (y : α) :
    Story once (some y) (changes ++ [.suggested y]) := by
  obtain - | ⟨lives, hlives, l⟩ := h
  have hliving := Story.living lives hlives ⟨l.strength, l.earlier ++ [l.last], y, 0⟩
  simpa [Life.lived] using hliving

/-- A life ends, perhaps more than once. -/
theorem Story.finish (h : Story once (some x) changes) {n : Nat} (hn : once → n = 0) :
    Story once none (changes ++ List.replicate (n + 1) .removed) := by
  obtain - | ⟨lives, hlives, l⟩ := h
  have hover : Story once none
      ((lives ++ [{ l with extra := n }]).flatMap Life.changes) := by
    refine .ended _ (fun ho l' hl' => ?_)
    rcases List.mem_append.mp hl' with hold | hnew
    · exact hlives ho l' hold
    · rw [List.mem_singleton.mp hnew]
      exact hn ho
  simpa [Life.changes, Life.lived] using hover

/-- What is told of a variable is the beginning of some lives. -/
theorem Story.exists_prefix (h : Story once value changes) :
    ∃ lives : List (Life α), (once → ∀ l ∈ lives, l.extra = 0) ∧
      changes <+: lives.flatMap Life.changes := by
  cases h with
  | ended lives hlives => exact ⟨lives, hlives, List.prefix_rfl⟩
  | living lives hlives l =>
      refine ⟨lives ++ [{ l with extra := 0 }], fun ho l' hl' => ?_, ?_⟩
      · rcases List.mem_append.mp hl' with hold | hnew
        · exact hlives ho l' hold
        · rw [List.mem_singleton.mp hnew]
      · rw [List.flatMap_append, List.flatMap_singleton, Life.changes, ← List.append_assoc]
        exact List.prefix_append _ _

theorem foldl_leaves_suggested (there : Bool) (values : List α) :
    (values.map EditChange.suggested).foldl leaves there = there := by
  induction values with
  | nil => rfl
  | cons x rest ih => exact ih

theorem foldl_leaves_lives (lives : List (Life α)) :
    (lives.flatMap Life.changes).foldl leaves false = false := by
  induction lives with
  | nil => rfl
  | cons l rest ih =>
      rw [List.flatMap_cons, List.foldl_append, Life.changes, List.foldl_append,
        List.replicate_succ', List.foldl_append]
      exact ih

/-- After a story, a variable is there exactly if it has a value. -/
theorem Story.isAdded_eq (h : Story once value changes) : isAdded changes = value.isSome := by
  cases h with
  | ended lives hlives => exact foldl_leaves_lives lives
  | living lives hlives l =>
      rw [isAdded, List.foldl_append, Life.lived, List.foldl_cons]
      exact foldl_leaves_suggested true _

/-- After a story, the value of a variable that is there is the one that was suggested
last. -/
theorem Story.lastSuggested?_eq (h : Story once (some x) changes) :
    lastSuggested? changes = some x := by
  obtain - | ⟨lives, hlives, l⟩ := h
  rw [lastSuggested?, Life.lived, List.map_append, List.filterMap_append, List.filterMap_cons,
    List.filterMap_append, List.getLast?_append]
  simp [EditChange.suggestion?]

section Removals

theorem Life.ne_removed {l : Life α} {change : EditChange α} (h : change ∈ l.lived) :
    change ≠ .removed := by
  rintro rfl
  simp [Life.lived] at h

/-- In lives that end once each, no removal follows a removal. -/
theorem isChain_lives {lives : List (Life α)} (h : ∀ l ∈ lives, l.extra = 0) :
    (lives.flatMap Life.changes).IsChain (fun a b => a = .removed → b ≠ .removed) := by
  have hlived : ∀ l : Life α, l.lived.IsChain (fun a b => a = .removed → b ≠ .removed) := by
    intro l
    refine List.isChain_iff_forall_rel_of_append_cons_cons.mpr (fun a b before after heq _ => ?_)
    have hb : b ∈ l.lived := by simp [heq]
    exact Life.ne_removed hb
  rw [List.flatMap_def]
  refine (List.isChain_flatten (by simp [Life.changes, Life.lived])).mpr ⟨?_, ?_⟩
  · intro changes hchanges
    obtain ⟨l, hl, rfl⟩ := List.mem_map.mp hchanges
    rw [Life.changes, h l hl]
    refine List.isChain_append.mpr ⟨hlived l, List.isChain_singleton _, fun a ha _ _ hremoved => ?_⟩
    exact absurd hremoved (Life.ne_removed (List.mem_of_getLast? ha))
  · refine (List.pairwise_map.mpr (List.pairwise_of_forall (fun l l' => ?_))).isChain
    intro a _ b hb _
    obtain rfl : EditChange.added l'.strength = b := Option.some.inj hb
    simp

theorem isChain_begun {lives : List (Life α)} (h : ∀ l ∈ lives, l.extra = 0)
    (hbegun : changes <+: lives.flatMap Life.changes) :
    changes.IsChain (fun a b => a = .removed → b ≠ .removed) := by
  obtain ⟨rest, heq⟩ := hbegun
  have hchain := isChain_lives h
  rw [← heq] at hchain
  exact hchain.left_of_append

end Removals

end Lives

section Changes

/-- What an event tells of a variable. -/
def TouchEvent.change? (v : Variable) : TouchEvent α → Option (EditChange α)
  | .edited w change => if w = v then some change else none
  | _ => none

/-- What a log tells of a variable. -/
def TouchEvent.changes (v : Variable) (log : List (TouchEvent α)) : List (EditChange α) :=
  log.filterMap (TouchEvent.change? v)

namespace Telling

/-- What is told of a variable. -/
def changes (v : Variable) (told : List (Telling α)) : List (EditChange α) :=
  TouchEvent.changes v (told.map event)

variable {v w : Variable} {told more : List (Telling α)}

theorem changes_append : changes v (told ++ more) = changes v told ++ changes v more := by
  simp [changes, TouchEvent.changes]

theorem changes_edited (v : Variable) (change : EditChange α) :
    changes v [.edited v change] = [change] := by
  simp [changes, TouchEvent.changes, event, TouchEvent.change?]

theorem changes_edited_of_ne (h : w ≠ v) (change : EditChange α) :
    changes v [.edited w change] = [] := by
  simp [changes, TouchEvent.changes, event, TouchEvent.change?, h]

theorem changes_adding (v : Variable) (mentions : List (Mention α)) :
    changes v (adding mentions) = [] := by
  cases mentions <;> rfl

theorem changes_removing (v : Variable) (mentions : List (Mention α)) :
    changes v (removing mentions) = [] := by
  cases mentions <;> rfl

theorem changes_reading (v : Variable) (values : List (Variable × α)) :
    changes v (reading values) = [] := by
  rw [changes, event_reading]
  exact List.filterMap_eq_nil_iff.mpr (fun e he => by
    obtain ⟨r, -, rfl⟩ := List.mem_map.mp he
    rfl)

/-- What variables that are removed are told of. -/
theorem changes_removed (v : Variable) (vars : List Variable) :
    changes v (vars.map (fun w => (.edited w .removed : Telling α))) =
      List.replicate (vars.count v) .removed := by
  induction vars with
  | nil => rfl
  | cons w rest ih =>
      rw [List.map_cons, ← List.singleton_append, changes_append, ih]
      by_cases hw : w = v
      · rw [hw, changes_edited, List.count_cons_self, List.replicate_succ, List.singleton_append]
      · rw [changes_edited_of_ne hw, List.count_cons_of_ne hw, List.nil_append]

end Telling

end Changes

section Tracking

/-- What was told of every variable is a story; after it the variables with a value are
those in a list of positions. -/
structure Tracks (once : Prop) (positions : List (Variable × α)) (told : List (Telling α)) :
    Prop where
  present : ∀ e ∈ positions, Story once (some e.2) (Telling.changes e.1 told)
  absent : ∀ v, (∀ x, (v, x) ∉ positions) → Story once none (Telling.changes v told)

variable {once once' : Prop} {positions : List (Variable × α)} {told more : List (Telling α)}
  {w : Variable} {x : α}

theorem Tracks.mono (h : Tracks once positions told) (hsub : once' → once) :
    Tracks once' positions told :=
  ⟨fun e he => (h.present e he).mono hsub, fun v hv => (h.absent v hv).mono hsub⟩

theorem Tracks.exists_story (h : Tracks once positions told) (v : Variable) :
    ∃ value, Story once value (Telling.changes v told) ∧
      (value.isSome = true ↔ ∃ x, (v, x) ∈ positions) := by
  by_cases hv : ∃ x, (v, x) ∈ positions
  · obtain ⟨x, hx⟩ := hv
    exact ⟨some x, h.present _ hx, by simp; exact ⟨x, hx⟩⟩
  · exact ⟨none, h.absent v (not_exists.mp hv), by simpa using not_exists.mp hv⟩

/-- What tells of no variable changes nothing. -/
theorem Tracks.quiet (h : Tracks once positions told) (hmore : ∀ v, Telling.changes v more = []) :
    Tracks once positions (told ++ more) where
  present := fun e he => by
    rw [Telling.changes_append, hmore, List.append_nil]
    exact h.present e he
  absent := fun v hv => by
    rw [Telling.changes_append, hmore, List.append_nil]
    exact h.absent v hv

/-- A variable comes to be and takes a value. -/
theorem Tracks.begin (h : Tracks once positions told) (hw : ∀ y, (w, y) ∉ positions)
    (strength : Strength α) (x : α) : Tracks once (positions ++ [(w, x)])
      (told ++ [.edited w (.added strength), .edited w (.suggested x)]) := by
  have hother : ∀ v, w ≠ v → Telling.changes v
      (told ++ [.edited w (.added strength), .edited w (.suggested x)]) =
        Telling.changes v told := by
    intro v hv
    rw [← List.singleton_append, Telling.changes_append, Telling.changes_append,
      Telling.changes_edited_of_ne hv, Telling.changes_edited_of_ne hv, List.append_nil,
      List.append_nil]
  constructor
  · intro e he
    rcases List.mem_append.mp he with hold | hnew
    · have hne : w ≠ e.1 := fun heq => hw e.2 (heq ▸ hold)
      rw [hother e.1 hne]
      exact h.present e hold
    · rw [List.mem_singleton.mp hnew, ← List.singleton_append, Telling.changes_append,
        Telling.changes_append, Telling.changes_edited, Telling.changes_edited]
      exact (h.absent w hw).begin strength x
  · intro v hv
    have hne : w ≠ v := fun heq => hv x (by simp [heq])
    rw [hother v hne]
    exact h.absent v (fun y hy => hv y (List.mem_append_left _ hy))

/-- Variables come to be one after another and take their values. -/
theorem Tracks.arrive {coordinates : List (Variable × α)} (h : Tracks once positions told)
    (strength : Strength α) (hnew : ((positions ++ coordinates).map (·.1)).Nodup) :
    Tracks once (positions ++ coordinates) (told ++ coordinates.flatMap (fun c =>
      [.edited c.1 (.added strength), .edited c.1 (.suggested c.2)])) := by
  induction coordinates generalizing positions told with
  | nil => simpa using h
  | cons c rest ih =>
      have hc : ∀ y, (c.1, y) ∉ positions := by
        intro y hy
        have hdistinct := hnew
        rw [List.map_append, List.map_cons] at hdistinct
        have hmem : c.1 ∈ positions.map (·.1) := List.mem_map.mpr ⟨_, hy, rfl⟩
        exact (List.nodup_middle.mp hdistinct).notMem (List.mem_append_left _ hmem)
      rw [← List.singleton_append, ← List.append_assoc] at hnew ⊢
      rw [List.flatMap_append, ← List.append_assoc]
      exact ih (by simpa using h.begin hc strength c.2) hnew

/-- A variable that is there takes another value. -/
theorem Tracks.suggest (h : Tracks once positions told) (hw : ∃ x, (w, x) ∈ positions) (y : α) :
    Tracks once (positions.map (fun e => if e.1 == w then (e.1, y) else e))
      (told ++ [.edited w (.suggested y)]) := by
  obtain ⟨x, hx⟩ := hw
  constructor
  · intro e he
    obtain ⟨d, hd, rfl⟩ := List.mem_map.mp he
    by_cases hdw : d.1 = w
    · rw [if_pos (beq_iff_eq.mpr hdw), Telling.changes_append, hdw, Telling.changes_edited]
      exact (h.present _ hx).suggest y
    · rw [if_neg (by simpa using hdw), Telling.changes_append,
        Telling.changes_edited_of_ne (Ne.symm hdw), List.append_nil]
      exact h.present d hd
  · intro v hv
    have hgone : ∀ z, (v, z) ∉ positions := by
      intro z hz
      have hmem := List.mem_map_of_mem (f := fun e : Variable × α =>
        if e.1 == w then (e.1, y) else e) hz
      by_cases hvw : v = w
      · exact hv y (by simpa [hvw] using hmem)
      · exact hv z (by simpa [hvw] using hmem)
    have hne : w ≠ v := fun heq => hgone x (heq ▸ hx)
    rw [Telling.changes_append, Telling.changes_edited_of_ne hne, List.append_nil]
    exact h.absent v hgone

/-- Variables that are there are removed, and are removed once if they are listed once. -/
theorem Tracks.leave {vars : List Variable} (h : Tracks once positions told)
    (hvars : ∀ w ∈ vars, ∃ x, (w, x) ∈ positions) (honce : once' → once ∧ vars.Nodup) :
    Tracks once' (positions.filter (fun e => !vars.contains e.1))
      (told ++ vars.map (fun w => .edited w .removed)) := by
  have hstays : ∀ {v value}, v ∉ vars → Story once value (Telling.changes v told) →
      Story once' value (Telling.changes v (told ++ vars.map (fun w => .edited w .removed))) := by
    intro v value hv hstory
    rw [Telling.changes_append, Telling.changes_removed, List.count_eq_zero_of_not_mem hv,
      List.replicate_zero, List.append_nil]
    exact hstory.mono (fun ho => (honce ho).1)
  constructor
  · intro e he
    obtain ⟨hmem, hkept⟩ := List.mem_filter.mp he
    exact hstays (by simpa using hkept) (h.present e hmem)
  · intro v hv
    by_cases hvw : v ∈ vars
    · obtain ⟨x, hx⟩ := hvars v hvw
      obtain ⟨n, hn⟩ := Nat.exists_eq_succ_of_ne_zero (List.count_pos_iff.mpr hvw).ne'
      rw [Telling.changes_append, Telling.changes_removed, hn]
      refine ((h.present _ hx).mono (fun ho => (honce ho).1)).finish (fun ho => ?_)
      have hle := List.nodup_iff_count_le_one.mp (honce ho).2 v
      omega
    · refine hstays hvw (h.absent v (fun x hx => hv x ?_))
      exact List.mem_filter.mpr ⟨hx, by simpa using hvw⟩

end Tracking

section Ending

/-- The edit variables of touches. -/
def TouchId.variables (ids : List TouchId) : List Variable :=
  ids.flatMap (fun id => [.ofTouch id .positionX, .ofTouch id .positionY])

/-- The active touches that a call ends, as often as it lists them. -/
def TrackerCall.ends (active : List TouchId) : TrackerCall α → List TouchId
  | .endTouches ids => ids.filter (active.contains ·)
  | .cancelTouches ids => ids.filter (active.contains ·)
  | _ => []

/-- No call lists a touch twice that it ends, if some touches are active at first. -/
def TrackerCall.EndsOnce (active : List TouchId) (calls : List (TrackerCall α)) : Prop :=
  ∀ before call after, calls = before ++ call :: after →
    (call.ends (before.foldl TrackerCall.activates active)).Nodup

theorem TouchId.nodup_variables {ids : List TouchId} (h : ids.Nodup) :
    (TouchId.variables ids).Nodup := by
  refine List.nodup_flatMap.mpr ⟨fun id _ => by simp [Variable.ofTouch], ?_⟩
  refine h.imp (fun hne => ?_)
  simp [Function.onFun, Variable.ofTouch, hne.symm]

theorem TouchId.mem_variables {ids : List TouchId} {v : Variable} :
    v ∈ TouchId.variables ids ↔
      ∃ id ∈ ids, v = .ofTouch id .positionX ∨ v = .ofTouch id .positionY := by
  simp [TouchId.variables]

theorem TouchId.count_variables (ids : List TouchId) (id : TouchId) :
    (TouchId.variables ids).count (.ofTouch id .positionX) = ids.count id := by
  induction ids with
  | nil => rfl
  | cons d rest ih =>
      have hcons : TouchId.variables (d :: rest) =
          [.ofTouch d .positionX, .ofTouch d .positionY] ++ TouchId.variables rest := rfl
      rw [hcons, List.count_append, ih, List.count_cons, List.count_cons]
      by_cases hd : d = id <;> simp [hd, Variable.ofTouch, Nat.add_comm]

theorem Telling.flatMap_departure (ids : List TouchId) :
    ids.flatMap (Telling.departure (α := α)) =
      (TouchId.variables ids).map (fun w => .edited w .removed) := by
  rw [TouchId.variables, List.map_flatMap]
  rfl

theorem TrackerCall.endsOnce_nil (active : List TouchId) :
    EndsOnce active ([] : List (TrackerCall α)) := by
  intro before call after h
  simp at h

theorem TrackerCall.endsOnce_cons {active : List TouchId} {call : TrackerCall α}
    {rest : List (TrackerCall α)} : EndsOnce active (call :: rest) ↔
      (call.ends active).Nodup ∧ EndsOnce (call.activates active) rest := by
  constructor
  · refine fun h => ⟨h [] call rest rfl, fun before d after heq => ?_⟩
    exact h (call :: before) d after (congrArg (call :: ·) heq)
  · rintro ⟨hcall, hrest⟩ before d after heq
    cases before with
    | nil =>
        obtain ⟨rfl, rfl⟩ := List.cons.inj heq
        exact hcall
    | cons first before =>
        obtain ⟨rfl, hbefore⟩ := List.cons.inj heq
        exact hrest before d after hbefore

theorem TrackerCall.EndsOnce.of_append {active : List TouchId} {calls : List (TrackerCall α)}
    {call : TrackerCall α} (h : EndsOnce active (calls ++ [call])) :
    EndsOnce active calls ∧ (call.ends (calls.foldl activates active)).Nodup := by
  refine ⟨fun before d after heq => h before d (after ++ [call]) (by simp [heq]), ?_⟩
  exact h calls call [] rfl

end Ending

namespace Tracker

variable {t u : Tracker α} {once once' : Prop} {told tellings : List (Telling α)}
  {call : TrackerCall α}

section Places

theorem keys_positions (t : Tracker α) :
    t.positions.map (·.1) = TouchId.variables t.touches.keys := by
  simp [positions, activeTouches, TouchPoint.coordinates, TouchId.variables, OrderedMap.keys,
    List.map_flatMap, List.flatMap_map]

theorem exists_position {w : Variable} (hw : w ∈ TouchId.variables t.touches.keys) :
    ∃ x, (w, x) ∈ t.positions := by
  rw [← keys_positions] at hw
  obtain ⟨e, he, rfl⟩ := List.mem_map.mp hw
  exact ⟨e.2, he⟩

/-- Touches that leave take their variables with them. -/
theorem positions_left (ht : t.touches.keys.Nodup) (ids : List TouchId) :
    (t.left ids).positions =
      t.positions.filter (fun e => !(TouchId.variables ids).contains e.1) := by
  induction ids generalizing t with
  | nil => exact (List.filter_eq_self.mpr (fun _ _ => rfl)).symm
  | cons id rest ih =>
      have hnodup : (t.touches.erase id).keys.Nodup := by
        rw [OrderedMap.keys_erase]
        exact ht.sublist List.eraseP_sublist
      have hrest := ih (t := { t with touches := t.touches.erase id }) hnodup
      rw [positions_erase ht, List.filter_filter, List.filter_filter] at hrest
      refine hrest.trans (List.filter_congr (fun e _ => ?_))
      simp only [TouchId.variables, List.flatMap_cons, List.contains_append, List.contains_cons,
        List.contains_nil, Bool.or_false, Bool.not_or]
      ac_rfl

end Places

section Telling

theorem tracks_joined (hs : Tracks once t.positions told) (strength : Strength α)
    {points : List (TouchPoint α)} (hnew : (t.touches.keys ++ points.map (·.id)).Nodup) :
    Tracks once (t.joined points).positions
      (told ++ points.flatMap (Telling.arrival strength)) := by
  have harrival : points.flatMap (Telling.arrival strength) =
      (points.flatMap (·.coordinates)).flatMap (fun c =>
        [.edited c.1 (.added strength), .edited c.1 (.suggested c.2)]) :=
    List.flatMap_assoc.symm
  have hkeys := keys_positions (t.joined points)
  rw [positions_joined, keys_joined] at hkeys
  rw [positions_joined, harrival]
  exact hs.arrive strength (hkeys ▸ TouchId.nodup_variables hnew)

theorem tracks_moved (hs : Tracks once t.positions told) (ht : t.touches.keys.Nodup)
    (points : List (TouchPoint α)) :
    Tracks once (t.moved points).positions (told ++
      (points.filter (fun p => t.touches.contains p.id)).flatMap Telling.suggestion) := by
  refine moved_induction (motive := fun u more => Tracks once u.positions (told ++ more)) ht
    (by rwa [List.append_nil]) ?_ points
  intro u more p hu hp ih
  have hid : p.id ∈ u.touches.keys := OrderedMap.contains_iff_mem_keys.mp hp
  obtain ⟨x, hx⟩ := exists_position (TouchId.mem_variables.mpr ⟨p.id, hid, .inl rfl⟩)
  obtain ⟨y, hy⟩ := exists_position (TouchId.mem_variables.mpr ⟨p.id, hid, .inr rfl⟩)
  have hy' : (Variable.ofTouch p.id .positionY, y) ∈ u.positions.map (fun e =>
      if e.1 == .ofTouch p.id .positionX then (e.1, p.x) else e) :=
    List.mem_map.mpr ⟨_, hy, by simp [Variable.ofTouch]⟩
  have hmoved := (ih.suggest ⟨x, hx⟩ p.x).suggest ⟨y, hy'⟩ p.y
  rw [positions_moved hu]
  simpa [Telling.suggestion, TouchPoint.coordinates] using hmoved

theorem tracks_left (hs : Tracks once t.positions told) (ht : t.touches.keys.Nodup)
    {ids : List TouchId} (hids : ∀ id ∈ ids, id ∈ t.touches.keys)
    (honce : once' → once ∧ ids.Nodup) :
    Tracks once' (t.left ids).positions (told ++ ids.flatMap Telling.departure) := by
  rw [positions_left ht, Telling.flatMap_departure]
  refine hs.leave (fun w hw => exists_position ?_) (fun ho => ?_)
  · obtain ⟨id, hid, hw⟩ := TouchId.mem_variables.mp hw
    exact TouchId.mem_variables.mpr ⟨id, hids id hid, hw⟩
  · exact ⟨(honce ho).1, TouchId.nodup_variables (honce ho).2⟩

theorem ends_eq {ids : List TouchId} (hcall : call = .endTouches ids ∨ call = .cancelTouches ids) :
    call.ends t.touches.keys = ids.filter t.touches.contains := by
  have hcontains : (t.touches.keys.contains ·) = t.touches.contains := by
    funext id
    rw [Bool.eq_iff_iff, OrderedMap.contains_iff_mem_keys, List.contains_iff_mem]
  rcases hcall with rfl | rfl <;> rw [TrackerCall.ends, hcontains]

variable [Scalar α]

theorem Applies.tracks (h : t.Applies tellings u) (hs : Tracks once t.positions told) :
    Tracks once u.positions (told ++ tellings) := by
  obtain ⟨-, -⟩ := h
  refine Tracks.quiet hs (fun v => ?_)
  rw [Telling.changes_append, Telling.changes_reading, Telling.changes_adding, List.append_nil]

/-- What a call tells of every variable goes on with its story. -/
theorem Tells.tracks (h : t.Tells call tellings u) (ht : t.Orderly)
    (hs : Tracks once t.positions told)
    (honce : once' → once ∧ (call.ends t.touches.keys).Nodup) :
    Tracks once' u.positions (told ++ tellings) := by
  have hs' : Tracks once' t.positions told := hs.mono (fun ho => (honce ho).1)
  cases h with
  | register distinct h =>
      rw [← List.append_assoc]
      exact h.tracks (hs'.quiet (fun v => Telling.changes_adding v _))
  | unregister h =>
      have hsame : u.positions = t.positions := by
        unfold positions activeTouches
        rw [h.touches]
      rw [hsame]
      exact hs'.quiet (fun v => Telling.changes_removing v _)
  | beginNone => simpa using hs'
  | begin some distinct h =>
      rw [← List.append_assoc, ← List.append_assoc]
      have hretracted := hs'.quiet (fun v => Telling.changes_removing v (t.forms.map .formed))
      exact h.tracks (tracks_joined hretracted _ distinct)
  | move => exact tracks_moved hs' ht.touches _
  | endNone hcall none => simpa using hs'
  | @ended _ ids _ _ hcall some h =>
      rw [← List.append_assoc, ← List.append_assoc]
      have hretracted := hs.quiet (fun v => Telling.changes_removing v (t.forms.map .formed))
      refine h.tracks (tracks_left hretracted ht.touches (fun id hid => ?_)
        (ends_eq hcall ▸ honce))
      exact OrderedMap.contains_iff_mem_keys.mp (List.mem_filter.mp hid).2

/-- What a run of calls tells of every variable goes on with its story. -/
theorem Recounts.tracks {calls : List (TrackerCall α)} {chapters : List (List (Telling α))}
    (h : t.Recounts calls chapters u) (ht : t.Orderly) (hs : Tracks once t.positions told) :
    Tracks (once ∧ TrackerCall.EndsOnce t.touches.keys calls) u.positions
      (told ++ chapters.flatten) := by
  induction h with
  | nothing =>
      rw [List.flatten_nil, List.append_nil]
      exact hs.mono And.left
  | @call calls chapters u call tellings v h hcall ih =>
      rw [List.flatten_append, List.flatten_singleton, ← List.append_assoc]
      refine hcall.tracks (h.orderly ht) ih (fun ⟨ho, hcalls⟩ => ?_)
      obtain ⟨hearlier, hlast⟩ := hcalls.of_append
      exact ⟨⟨ho, hearlier⟩, h.touches_eq ht ▸ hlast⟩

end Telling

section Twice

variable [Scalar α] {calls : List (TrackerCall α)} {chapters : List (List (Telling α))}

/-- A call that ends touches retracts, removes their variables and applies. -/
theorem Tells.of_ends (h : t.Tells call tellings u) (hsome : call.ends t.touches.keys ≠ []) :
    ∃ applied, tellings =
        t.retraction ++ (call.ends t.touches.keys).flatMap Telling.departure ++ applied ∧
      (t.left (call.ends t.touches.keys)).Applies applied u := by
  cases h with
  | endNone hcall none => exact absurd ((ends_eq hcall).trans none) hsome
  | ended hcall some h =>
      rw [ends_eq hcall]
      exact ⟨_, rfl, h⟩
  | _ => exact absurd rfl hsome

/-- A variable of a touch that a call lists twice is removed twice without a break. -/
theorem Recounts.exists_removed_twice (h : t.Recounts calls chapters u) (ht : t.Orderly)
    (hcalls : ¬ TrackerCall.EndsOnce t.touches.keys calls) :
    ∃ v before after,
      Telling.changes v chapters.flatten = before ++ .removed :: .removed :: after := by
  simp only [TrackerCall.EndsOnce, not_forall] at hcalls
  obtain ⟨first, call, rest, rfl, htwice⟩ := hcalls
  obtain ⟨v, w, earlier, tellings, later, rfl, hfirst, htells, -⟩ := h.exists_tells
  rw [← hfirst.touches_eq ht] at htwice
  obtain ⟨applied, rfl, -⟩ := htells.of_ends (fun hnone => htwice (hnone ▸ List.nodup_nil))
  obtain ⟨id, hid⟩ := not_forall.mp (mt List.nodup_iff_count_le_one.mpr htwice)
  obtain ⟨n, hn⟩ := Nat.exists_eq_add_of_le' (Nat.lt_of_not_le hid)
  have hremoved : ∀ x, Telling.changes x ((call.ends v.touches.keys).flatMap Telling.departure) =
      List.replicate ((TouchId.variables (call.ends v.touches.keys)).count x)
        (.removed : EditChange α) :=
    fun x => Telling.flatMap_departure _ ▸ Telling.changes_removed x _
  refine ⟨.ofTouch id .positionX, Telling.changes (.ofTouch id .positionX) earlier.flatten,
    List.replicate n .removed ++
      Telling.changes (.ofTouch id .positionX) (applied ++ later.flatten), ?_⟩
  simp only [List.flatten_append, List.flatten_cons, Telling.changes_append, retraction,
    Telling.changes_removing, hremoved, TouchId.count_variables, hn]
  simp [List.replicate_succ]

end Twice

section Results

variable [Scalar α] {σ : Type}

/-- Whatever its calls list, a run tells of every variable the beginning of lives, one after
another; and no life ends more than once exactly if no call lists a touch twice that it
ends.  After the run the variables that are there are those of the active touches, and what
was suggested last are their positions. -/
theorem edit_changes_follow_lives (settings : Settings α)
    (listener : Listener (StateT σ (Except Halt)) α) (calls : List (TrackerCall α)) (start : σ)
    {t : Tracker α} {log : List (TouchEvent α)} {state : σ}
    (hrun : (((empty settings).run listener.logged calls).run []).run start =
      .ok ((t, log), state)) :
    (∀ v, ∃ lives : List (Life α), TouchEvent.changes v log <+: lives.flatMap Life.changes) ∧
    ((∀ v, ∃ lives : List (Life α), (∀ l ∈ lives, l.extra = 0) ∧
        TouchEvent.changes v log <+: lives.flatMap Life.changes) ↔
      TrackerCall.EndsOnce [] calls) ∧
    (∀ v, EditChange.isAdded (TouchEvent.changes v log) = true ↔
      ∃ p ∈ t.activeTouches, v ∈ p.coordinates.map (·.1)) ∧
    ∀ p ∈ t.activeTouches, ∀ e ∈ p.coordinates,
      EditChange.lastSuggested? (TouchEvent.changes e.1 log) = some e.2 := by
  have hempty : (empty settings : Tracker α).Orderly := orderly_empty settings
  have hexec : exec ((empty settings).run listener.logged calls) ([], start) =
      .ok (t, (log, state)) := congrArg (Except.map (fun p => (p.1.1, (p.1.2, p.2)))) hrun
  obtain ⟨chapters, hlog, h, -⟩ := exists_recounts listener.hears_logged hempty calls hexec
  obtain rfl : log = chapters.flatten.map Telling.event := hlog
  have hstart : Tracks True (empty settings : Tracker α).positions [] :=
    ⟨fun _ he => (by cases he), fun _ _ => .ended [] (fun _ _ hl => (by cases hl))⟩
  have htracks : Tracks (TrackerCall.EndsOnce [] calls) t.positions chapters.flatten :=
    (h.tracks hempty hstart).mono (fun hcalls => ⟨trivial, hcalls⟩)
  refine ⟨fun v => ?_, ⟨fun hlives => ?_, fun hcalls v => ?_⟩, fun v => ?_, fun p hp e he => ?_⟩
  · obtain ⟨value, hstory, -⟩ := htracks.exists_story v
    obtain ⟨lives, -, hprefix⟩ := hstory.exists_prefix
    exact ⟨lives, hprefix⟩
  · by_contra hcalls
    obtain ⟨v, before, after, htwice⟩ := h.exists_removed_twice hempty hcalls
    obtain ⟨lives, honce, hprefix⟩ := hlives v
    have hchain := isChain_begun honce hprefix
    change (Telling.changes v chapters.flatten).IsChain _ at hchain
    rw [htwice, List.isChain_append_cons_cons] at hchain
    exact hchain.2.1 rfl rfl
  · obtain ⟨value, hstory, -⟩ := htracks.exists_story v
    obtain ⟨lives, honce, hprefix⟩ := hstory.exists_prefix
    exact ⟨lives, honce hcalls, hprefix⟩
  · obtain ⟨value, hstory, hvalue⟩ := htracks.exists_story v
    change EditChange.isAdded (Telling.changes v chapters.flatten) = true ↔ _
    rw [hstory.isAdded_eq, hvalue]
    constructor
    · rintro ⟨x, hx⟩
      obtain ⟨p, hp, he⟩ := List.mem_flatMap.mp hx
      exact ⟨p, hp, List.mem_map.mpr ⟨_, he, rfl⟩⟩
    · rintro ⟨p, hp, hv⟩
      obtain ⟨e, he, rfl⟩ := List.mem_map.mp hv
      exact ⟨e.2, List.mem_flatMap.mpr ⟨p, hp, he⟩⟩
  · have hmem : e ∈ t.positions := List.mem_flatMap.mpr ⟨p, hp, he⟩
    exact (htracks.present e hmem).lastSuggested?_eq

/-- A touch begins, moves and is ended once, beside one that stays: every life ends once, and
the touch that stays is where it moved. -/
theorem remaining_touch_is_where_it_moved :
    ∃ (t : Tracker Rat) (log : List (TouchEvent Rat)),
      (((empty .standard).run (Listener.ofValues (fun _ => 0) :
        Listener (StateT Unit (Except Halt)) Rat).logged
        [.beginTouches [⟨⟨7⟩, 1, 2⟩, ⟨⟨9⟩, 3, 4⟩], .moveTouches [⟨⟨9⟩, 5, 6⟩, ⟨⟨8⟩, 0, 0⟩],
          .endTouches [⟨7⟩, ⟨8⟩, ⟨8⟩]]).run []).run () = .ok ((t, log), ()) ∧
      TrackerCall.EndsOnce [] [.beginTouches [⟨⟨7⟩, (1 : Rat), 2⟩, ⟨⟨9⟩, 3, 4⟩],
        .moveTouches [⟨⟨9⟩, 5, 6⟩, ⟨⟨8⟩, 0, 0⟩], .endTouches [⟨7⟩, ⟨8⟩, ⟨8⟩]] ∧
      (∀ v, ∃ lives : List (Life Rat), (∀ l ∈ lives, l.extra = 0) ∧
        TouchEvent.changes v log <+: lives.flatMap Life.changes) ∧
      t.activeTouches = [⟨⟨9⟩, 5, 6⟩] ∧
      EditChange.lastSuggested? (TouchEvent.changes (.ofTouch ⟨9⟩ .positionX) log) = some 5 := by
  have hsome : (((empty .standard).run (Listener.ofValues (fun _ => 0) :
      Listener (StateT Unit (Except Halt)) Rat).logged
      [.beginTouches [⟨⟨7⟩, 1, 2⟩, ⟨⟨9⟩, 3, 4⟩], .moveTouches [⟨⟨9⟩, 5, 6⟩, ⟨⟨8⟩, 0, 0⟩],
        .endTouches [⟨7⟩, ⟨8⟩, ⟨8⟩]]).run [] |>.run ()).toOption.any
          (fun p => decide (p.1.1.activeTouches = [⟨⟨9⟩, 5, 6⟩])) = true := by
    decide +kernel
  obtain ⟨⟨⟨t, log⟩, state⟩, hrun, hactive⟩ := exists_ok_of_any hsome
  obtain ⟨-, honce, -, hlast⟩ :=
    edit_changes_follow_lives .standard (Listener.ofValues (fun _ => 0)) _ () hrun
  have hactive : t.activeTouches = [⟨⟨9⟩, 5, 6⟩] := of_decide_eq_true hactive
  have hcalls : TrackerCall.EndsOnce [] [.beginTouches [⟨⟨7⟩, (1 : Rat), 2⟩, ⟨⟨9⟩, 3, 4⟩],
      .moveTouches [⟨⟨9⟩, 5, 6⟩, ⟨⟨8⟩, 0, 0⟩], .endTouches [⟨7⟩, ⟨8⟩, ⟨8⟩]] := by
    simp only [TrackerCall.endsOnce_cons, TrackerCall.endsOnce_nil]
    decide
  refine ⟨t, log, hrun, hcalls, honce.mpr hcalls, hactive, ?_⟩
  exact hlast ⟨⟨9⟩, 5, 6⟩ (by simp [hactive]) _ (List.mem_cons_self ..)

/-- A touch that is listed twice by the call that ends it leaves twice, so its variables do
not live as they should. -/
theorem touch_ended_twice_leaves_twice :
    ∃ (t : Tracker Rat) (log : List (TouchEvent Rat)),
      (((empty .standard).run (Listener.ofValues (fun _ => 0) :
        Listener (StateT Unit (Except Halt)) Rat).logged
        [.beginTouches [⟨⟨7⟩, 1, 2⟩], .endTouches [⟨7⟩, ⟨7⟩]]).run []).run () =
          .ok ((t, log), ()) ∧
      TouchEvent.changes (.ofTouch ⟨7⟩ .positionX) log =
        [.added .touch, .suggested 1, .removed, .removed] ∧
      ¬ ∃ lives : List (Life Rat), (∀ l ∈ lives, l.extra = 0) ∧
        TouchEvent.changes (.ofTouch ⟨7⟩ .positionX) log <+: lives.flatMap Life.changes := by
  have hsome : (((empty .standard).run (Listener.ofValues (fun _ => 0) :
      Listener (StateT Unit (Except Halt)) Rat).logged
      [.beginTouches [⟨⟨7⟩, 1, 2⟩], .endTouches [⟨7⟩, ⟨7⟩]]).run [] |>.run ()).toOption.any
        (fun p => decide (TouchEvent.changes (.ofTouch ⟨7⟩ .positionX) p.1.2 =
          [.added .touch, .suggested 1, .removed, .removed])) = true := by
    decide +kernel
  obtain ⟨⟨⟨t, log⟩, state⟩, hrun, hchanges⟩ := exists_ok_of_any hsome
  have hchanges : TouchEvent.changes (.ofTouch ⟨7⟩ .positionX) log =
      [.added .touch, .suggested 1, .removed, .removed] := of_decide_eq_true hchanges
  refine ⟨t, log, hrun, hchanges, ?_⟩
  rintro ⟨lives, honce, hprefix⟩
  have hchain := isChain_begun honce (hchanges ▸ hprefix)
  simp at hchain

end Results

end Tracker

end Tether
