import Tether.Proofs.OrderedMap
import Tether.Proofs.Solver.Contents
import Tether.Proofs.Touch.Forms
import Tether.Touch.Call

/-!
# What the calls to a tracker tell

Every call to a tracker is described once, by a relation between the tracker before
it, what the listener is told, and the tracker after it.  In what is told, each
constraint has its provenance: the caller passed it on, or the tracker formed it.

`meets_perform` says that a call does as described, or halts; and that it only halts
if the listener does, or if the caller broke a promise.  What holds of all calls is
read off the description.
-/

namespace Tether

variable {α : Type}

section Tellings

/-- A concrete form that a tracker made: of which constraint, and under which touches. -/
structure Form (α : Type) where
  /-- The registered constraint. -/
  source : Constraint α
  /-- Its concrete form. -/
  concrete : Constraint α
  /-- The touches that were active, oldest first. -/
  touches : List TouchId

/-- A constraint that a listener is told of, and where it comes from. -/
inductive Mention (α : Type)
  /-- The caller passed it on. -/
  | passed (c : Constraint α)
  /-- The tracker formed it. -/
  | formed (f : Form α)

/-- The constraint that is told of. -/
def Mention.constraint : Mention α → Constraint α
  | .passed c => c
  | .formed f => f.concrete

/-- An event in which every constraint has its provenance. -/
inductive Telling (α : Type)
  | added (mentions : List (Mention α))
  | removed (mentions : List (Mention α))
  | edited (v : Variable) (change : EditChange α)
  | sampled (v : Variable) (value : α)

namespace Telling

/-- What the listener sees of it. -/
def event : Telling α → TouchEvent α
  | .added mentions => .added (mentions.map (·.constraint))
  | .removed mentions => .removed (mentions.map (·.constraint))
  | .edited v change => .edited v change
  | .sampled v value => .sampled v value

/-- Constraints are added, if there are any. -/
def adding (mentions : List (Mention α)) : List (Telling α) :=
  if mentions.isEmpty then [] else [.added mentions]

/-- Constraints are removed, if there are any. -/
def removing (mentions : List (Mention α)) : List (Telling α) :=
  if mentions.isEmpty then [] else [.removed mentions]

theorem eq_of_mem_adding {mentions : List (Mention α)} {telling : Telling α}
    (h : telling ∈ adding mentions) : telling = .added mentions := by
  unfold adding at h
  split at h
  · cases h
  · exact List.mem_singleton.mp h

theorem eq_of_mem_removing {mentions : List (Mention α)} {telling : Telling α}
    (h : telling ∈ removing mentions) : telling = .removed mentions := by
  unfold removing at h
  split at h
  · cases h
  · exact List.mem_singleton.mp h

/-- Values are read. -/
def reading (values : List (Variable × α)) : List (Telling α) :=
  values.map (fun r => .sampled r.1 r.2)

/-- A touch has a position. -/
def suggestion (p : TouchPoint α) : List (Telling α) :=
  p.coordinates.map (fun c => .edited c.1 (.suggested c.2))

/-- A touch arrives: its edit variables come to be and take its position. -/
def arrival (strength : Strength α) (p : TouchPoint α) : List (Telling α) :=
  p.coordinates.flatMap (fun c =>
    [.edited c.1 (.added strength), .edited c.1 (.suggested c.2)])

/-- A touch is gone: its edit variables are removed. -/
def departure (id : TouchId) : List (Telling α) :=
  [.edited (.ofTouch id .positionX) .removed, .edited (.ofTouch id .positionY) .removed]

end Telling

end Tellings

section Describing

variable [Scalar α]

/-- A promise that a call breaks, when some constraints are registered and some touches
active. -/
inductive TrackerCall.Breaks (registered : List (Constraint α)) (active : List TouchId) :
    TrackerCall α → Breach → Prop
  /-- A proxy constraint is registered already, or given twice. -/
  | registeredTwice {cs before after : List (Constraint α)} {c : Constraint α}
      (hcs : cs = before ++ c :: after) (hc : c.hasProxies = true)
      (h : (registered ++ before).any (· == c) = true) :
      Breaks registered active (.register cs) (.registeredTwice c.name)
  /-- A proxy constraint is not registered, or given twice. -/
  | notRegistered {cs before after : List (Constraint α)} {c : Constraint α}
      (hcs : cs = before ++ c :: after) (hc : c.hasProxies = true)
      (h : registered.any (· == c) = false ∨ before.any (· == c) = true) :
      Breaks registered active (.unregister cs) (.notRegistered c.name)
  /-- A touch is active already, or given twice. -/
  | begunTwice {points before after : List (TouchPoint α)} {p : TouchPoint α}
      (hpoints : points = before ++ p :: after) (h : p.id ∈ active ++ before.map (·.id)) :
      Breaks registered active (.beginTouches points) (.begunTwice p.id)

namespace Tracker

/-- The concrete forms that are applied. -/
def forms (t : Tracker α) : List (Form α) :=
  t.applied.entries.map (fun e => ⟨e.1, e.2, t.touches.keys⟩)

/-- The concrete form of a constraint, if it is applied. -/
def form? (t : Tracker α) (c : Constraint α) : Option (Form α) :=
  (t.applied.find? c).map (fun e => ⟨e.1, e.2, t.touches.keys⟩)

/-- What a tracker that retracts everything tells. -/
def retraction (t : Tracker α) : List (Telling α) :=
  Telling.removing (t.forms.map .formed)

/-- The tracker with further registered constraints. -/
def enrolled (t : Tracker α) (cs : List (Constraint α)) : Tracker α :=
  { t with registered := t.registered ++ cs }

/-- The tracker without a registered constraint. -/
def released (t : Tracker α) (c : Constraint α) : Tracker α :=
  { t with
    registered := t.registered.eraseP (fun r => r == c)
    applied := t.applied.erase c }

/-- The tracker with further touches, before it applies anything. -/
def joined (t : Tracker α) (points : List (TouchPoint α)) : Tracker α :=
  { t with
    touches := ⟨t.touches.entries ++ points.map (fun p => (p.id, ⟨p.x, p.y⟩))⟩
    applied := .empty }

/-- The tracker with other positions of its touches. -/
def moved (t : Tracker α) (points : List (TouchPoint α)) : Tracker α :=
  { t with touches := points.foldl (fun m p => m.modify p.id (fun _ => ⟨p.x, p.y⟩)) t.touches }

/-- The tracker without some touches, before it applies anything. -/
def left (t : Tracker α) (ids : List TouchId) : Tracker α :=
  { t with
    touches := ids.foldl (fun m id => m.erase id) t.touches
    applied := .empty }

/-- A tracker applies what fits: values are read, and forms of all that was waiting are
added. -/
inductive Applies (t : Tracker α) : List (Telling α) → Tracker α → Prop
  | intro {values : List (Variable × α)} {made : List (Constraint α × Constraint α)}
      (hsource : made.map (·.1) = t.waiting)
      (hform : ∀ e ∈ made, e.1.FormOf t.touches.keys e.2) :
      Applies t
        (Telling.reading values ++
          Telling.adding (made.map (fun e => .formed ⟨e.1, e.2, t.touches.keys⟩)))
        { t with applied := ⟨t.applied.entries ++ made⟩ }

/-- Constraints are taken out of a tracker one by one, and what has to be removed is
gathered. -/
inductive Withdraws (t : Tracker α) : List (Constraint α) → List (Mention α) → Tracker α → Prop
  | nothing : Withdraws t [] [] t
  | passed {cs mentions u c} (h : Withdraws t cs mentions u) (hc : c.hasProxies = false) :
      Withdraws t (cs ++ [c]) (mentions ++ [.passed c]) u
  | released {cs mentions u c} (h : Withdraws t cs mentions u) (hc : c.hasProxies = true)
      (hr : u.isRegistered c = true) :
      Withdraws t (cs ++ [c]) (mentions ++ (u.form? c).toList.map .formed) (u.released c)

/-- What a call tells, and the tracker after it. -/
inductive Tells (t : Tracker α) : TrackerCall α → List (Telling α) → Tracker α → Prop
  | register {cs tellings u}
      (distinct : Constraint.Distinct (t.registered ++ cs.filter (·.hasProxies)))
      (h : Applies (t.enrolled (cs.filter (·.hasProxies))) tellings u) :
      Tells t (.register cs)
        (Telling.adding ((cs.filter (fun c => !c.hasProxies)).map .passed) ++ tellings) u
  | unregister {cs mentions u} (h : Withdraws t cs mentions u) :
      Tells t (.unregister cs) (Telling.removing mentions) u
  | beginNone : Tells t (.beginTouches []) [] t
  | begin {points tellings u} (some : points ≠ [])
      (distinct : (t.touches.keys ++ points.map (·.id)).Nodup)
      (h : Applies (t.joined points) tellings u) :
      Tells t (.beginTouches points)
        (t.retraction ++ points.flatMap (Telling.arrival t.settings.touchStrength) ++ tellings) u
  | move {points} :
      Tells t (.moveTouches points)
        ((points.filter (fun p => t.touches.contains p.id)).flatMap Telling.suggestion)
        (t.moved points)
  | endNone {call ids} (hcall : call = .endTouches ids ∨ call = .cancelTouches ids)
      (none : ids.filter t.touches.contains = []) : Tells t call [] t
  | ended {call ids tellings u} (hcall : call = .endTouches ids ∨ call = .cancelTouches ids)
      (some : ids.filter t.touches.contains ≠ [])
      (h : Applies (t.left (ids.filter t.touches.contains)) tellings u) :
      Tells t call
        (t.retraction ++ (ids.filter t.touches.contains).flatMap Telling.departure ++ tellings) u

/-- What holds of every tracker between calls: touches and registered constraints are
distinct, what is applied is what fits, and its concrete forms are made under the
active touches. -/
structure Orderly (t : Tracker α) : Prop where
  touches : t.touches.keys.Nodup
  registered : Constraint.Distinct t.registered
  proxied : ∀ c ∈ t.registered, c.hasProxies = true
  applied : t.applied.keys = t.registered.filter t.fits
  forms : ∀ e ∈ t.applied.entries, e.1.FormOf t.touches.keys e.2

/-- What stays registered is what is not taken out. -/
theorem Withdraws.registered_eq {t u : Tracker α} {cs : List (Constraint α)}
    {mentions : List (Mention α)} (h : t.Withdraws cs mentions u) (ht : t.Orderly) :
    u.registered = t.registered.filter (fun r => !cs.any (· == r)) := by
  induction h with
  | nothing => simp
  | @passed cs mentions u c h hc ih =>
      rw [ih]
      refine List.filter_congr (fun r hr => ?_)
      have hne : (c == r) = false := by
        rw [Bool.eq_false_iff]
        intro heq
        rw [Constraint.hasProxies_congr heq, ht.proxied r hr] at hc
        cases hc
      simp [hne]
  | @released cs mentions u c h hc hr ih =>
      have hdistinct : Constraint.Distinct u.registered :=
        ih ▸ List.Pairwise.sublist List.filter_sublist ht.registered
      show u.registered.eraseP (fun r => r == c) = _
      rw [hdistinct.eraseP_eq_filter, ih, List.filter_filter]
      refine List.filter_congr (fun r _ => ?_)
      rw [List.any_append, Bool.not_or, Bool.and_comm, Constraint.beq_comm r c]
      simp

/-- A constraint in the middle of those that are taken out is registered when its turn
comes. -/
theorem Withdraws.exists_isRegistered {t u : Tracker α} {before after : List (Constraint α)}
    {c : Constraint α} {mentions : List (Mention α)}
    (h : t.Withdraws (before ++ c :: after) mentions u) (hc : c.hasProxies = true) :
    ∃ mentions' v, t.Withdraws before mentions' v ∧ v.isRegistered c = true := by
  generalize hcs : before ++ c :: after = cs at h
  induction h generalizing after with
  | nothing => simp at hcs
  | @passed cs mentions v d h hd ih =>
      obtain rfl | ⟨after', d', rfl⟩ := after.eq_nil_or_concat'
      · obtain ⟨-, hcd⟩ := List.append_inj' hcs rfl
        rw [List.cons.inj hcd |>.1, hd] at hc
        cases hc
      · rw [← List.cons_append, ← List.append_assoc] at hcs
        exact ih (List.append_inj' hcs rfl).1
  | @released cs mentions v d h hd hr ih =>
      obtain rfl | ⟨after', d', rfl⟩ := after.eq_nil_or_concat'
      · obtain ⟨rfl, hcd⟩ := List.append_inj' hcs rfl
        exact ⟨mentions, v, h, List.cons.inj hcd |>.1 ▸ hr⟩
      · rw [← List.cons_append, ← List.append_assoc] at hcs
        exact ih (List.append_inj' hcs rfl).1

theorem Withdraws.any_of_not_isRegistered {t u : Tracker α} {cs : List (Constraint α)}
    {mentions : List (Mention α)} (h : t.Withdraws cs mentions u) (ht : t.Orderly)
    {c : Constraint α} (hc : u.isRegistered c = false) :
    t.registered.any (· == c) = false ∨ cs.any (· == c) = true := by
  by_contra hne
  obtain ⟨hr, hcs⟩ := not_or.mp hne
  rw [Bool.not_eq_false, List.any_eq_true] at hr
  obtain ⟨r, hr, hrc⟩ := hr
  have hmem : r ∈ u.registered := by
    rw [h.registered_eq ht, List.mem_filter]
    refine ⟨hr, ?_⟩
    rw [Bool.not_eq_true']
    rw [Bool.not_eq_true, List.any_eq_false] at hcs
    refine List.any_eq_false.mpr (fun d hd => ?_)
    rw [Constraint.beq_comm, Constraint.beq_congr hrc, Constraint.beq_comm]
    exact hcs d hd
  have := List.any_eq_false.mp hc r hmem
  exact this hrc

end Tracker

end Describing

section Performing

open Stateful Tracker

variable {m : Type → Type} [Monad m] [MonadExceptOf Halt m] {τ : Type} [Stateful m τ]
variable {listener : Listener m α} {T : τ → List (TouchEvent α) → τ → Prop} {P : Halt → Prop}
variable {t : Tracker α} {s : τ}

theorem event_reading (values : List (Variable × α)) :
    (Telling.reading values).map Telling.event = readings values := by
  simp [Telling.reading, readings, Telling.event]

/-- A listener is told of added constraints, unless there are none. -/
theorem meets_adding (hears : listener.Hears T P) {γ : Type} {f : Unit → m γ} {Q : γ × τ → Prop}
    {cs : List (Constraint α)} (mentions : List (Mention α))
    (hcs : mentions.map (·.constraint) = cs)
    (h : ∀ u, T s ((Telling.adding mentions).map Telling.event) u → Meets (exec (f ()) u) P Q) :
    Meets (exec (if !cs.isEmpty then listener.added cs >>= f else f ()) s) P Q := by
  subst hcs
  cases mentions with
  | nil => exact h s (hears.nothing s)
  | cons mention rest =>
      refine meets_bind ((hears.added _ s).mono (fun _ => id) (fun p hp => ?_))
      exact h p.2 hp

/-- A listener is told of removed constraints, unless there are none. -/
theorem meets_removing (hears : listener.Hears T P) {γ : Type} {f : Unit → m γ}
    {Q : γ × τ → Prop} {cs : List (Constraint α)} (mentions : List (Mention α))
    (hcs : mentions.map (·.constraint) = cs)
    (h : ∀ u, T s ((Telling.removing mentions).map Telling.event) u →
      Meets (exec (f ()) u) P Q) :
    Meets (exec (if !cs.isEmpty then listener.removed cs >>= f else f ()) s) P Q := by
  subst hcs
  cases mentions with
  | nil => exact h s (hears.nothing s)
  | cons mention rest =>
      refine meets_bind ((hears.removed _ s).mono (fun _ => id) (fun p hp => ?_))
      exact h p.2 hp

/-- Retracting leaves nothing applied, and tells what was. -/
theorem meets_retract (hears : listener.Hears T P) :
    Meets (exec (t.retract listener) s) P (fun p =>
      T s (t.retraction.map Telling.event) p.2 ∧ p.1 = { t with applied := .empty }) := by
  obtain ⟨settings, touches, registered, ⟨entries⟩⟩ := t
  cases entries with
  | nil => exact meets_pure ⟨hears.nothing s, rfl⟩
  | cons e rest =>
      refine meets_bind ((hears.removed _ s).mono (fun _ => id) (fun p hp => ?_))
      refine meets_pure ⟨?_, rfl⟩
      simpa [retraction, Tracker.forms, Telling.removing, Telling.event, Mention.constraint,
        Function.comp_def, Tracker.appliedConstraints, OrderedMap.values] using hp

/-- A listener that is told something of each element is told all of it, one after the
other. -/
theorem meets_forM_tellings (hears : listener.Hears T P) {γ : Type} {f : γ → m Unit}
    (told : γ → List (Telling α)) (l : List γ)
    (h : ∀ x u, Meets (exec (f x) u) P (fun q => T u ((told x).map Telling.event) q.2)) :
    Meets (exec (l.forM f) s) P (fun q => T s ((l.flatMap told).map Telling.event) q.2) := by
  refine meets_forM (I := fun before u => T s ((before.flatMap told).map Telling.event) u) l
    (hears.nothing s) ?_
  intro before x after u _ hu
  refine (h x u).mono (fun _ => id) (fun q hq => ?_)
  rw [List.flatMap_append, List.flatMap_singleton, List.map_append]
  exact hears.more hu hq

theorem meets_beginTouch (hears : listener.Hears T P) (p : TouchPoint α) :
    Meets (exec (t.beginTouch listener p) s)
      (fun halt => P halt ∨ halt = .breach (.begunTwice p.id) ∧ p.id ∈ t.touches.keys)
      (fun q => p.id ∉ t.touches.keys ∧
        T s ((Telling.arrival t.settings.touchStrength p).map Telling.event) q.2 ∧
        q.1 = { t with touches := ⟨t.touches.entries ++ [(p.id, ⟨p.x, p.y⟩)]⟩ }) := by
  unfold Tracker.beginTouch
  split
  · rename_i hp
    exact meets_throw (.inr ⟨rfl, OrderedMap.contains_iff_mem_keys.mp hp⟩)
  · rename_i hp
    have hp : t.touches.contains p.id = false := by simpa using hp
    refine meets_bind ((meets_forM_tellings hears (fun c =>
      [.edited c.1 (.added t.settings.touchStrength), .edited c.1 (.suggested c.2)])
      p.coordinates (fun c u => ?_)).mono (fun _ => .inl) (fun q hq => ?_))
    · refine meets_bind ((hears.edited _ _ u).mono (fun _ => id) (fun q hq => ?_))
      exact (hears.edited _ _ q.2).mono (fun _ => id) (fun q' hq' => hears.more hq hq')
    · refine meets_pure ⟨?_, hq, ?_⟩
      · rw [← OrderedMap.contains_iff_mem_keys, hp]
        exact Bool.false_ne_true
      · rw [← OrderedMap.entries_insert_of_not_contains hp]

/-- A touch that is not active does not move. -/
theorem meets_moveTouch (hears : listener.Hears T P) (p : TouchPoint α) :
    Meets (exec (t.moveTouch listener p) s) P (fun q =>
      T s ((([p].filter (fun p => t.touches.contains p.id)).flatMap Telling.suggestion).map
        Telling.event) q.2 ∧ q.1 = t.moved [p]) := by
  have hmoved : t.moved [p] =
      { t with touches := t.touches.modify p.id (fun _ => ⟨p.x, p.y⟩) } := rfl
  unfold Tracker.moveTouch
  split
  · rename_i hp
    refine meets_bind ((meets_forM_tellings hears (fun c => [.edited c.1 (.suggested c.2)])
      p.coordinates (fun c u => hears.edited _ _ u)).mono (fun _ => id) (fun q hq => ?_))
    refine meets_pure ⟨?_, rfl⟩
    rw [List.filter_cons_of_pos (p := fun p : TouchPoint α => t.touches.contains p.id) hp]
    exact hq
  · rename_i hp
    refine meets_pure ⟨?_, ?_⟩
    · rw [List.filter_cons_of_neg (p := fun p : TouchPoint α => t.touches.contains p.id) hp]
      exact hears.nothing s
    · rw [hmoved, OrderedMap.modify_of_not_contains (by simpa using hp)]

theorem meets_endTouch (hears : listener.Hears T P) (id : TouchId) :
    Meets (exec (t.endTouch listener id) s) P (fun q =>
      T s ((Telling.departure id).map Telling.event) q.2 ∧
        q.1 = { t with touches := t.touches.erase id }) :=
  meets_bind ((meets_forM_tellings hears (fun property =>
    [.edited (.ofTouch id property) .removed]) [Property.positionX, Property.positionY]
    (fun _ u => hears.edited _ _ u)).mono (fun _ hP => hP)
    (fun _ hq => meets_pure ⟨hq, rfl⟩))

/-- Touches end one after another. -/
theorem meets_foldlM_endTouch (hears : listener.Hears T P) (ids : List TouchId) :
    Meets (exec (ids.foldlM (endTouch listener) { t with applied := .empty }) s) P
      (fun p => T s ((ids.flatMap Telling.departure).map Telling.event) p.2 ∧
        p.1 = t.left ids) := by
  refine meets_foldlM (I := fun before p =>
    T s ((before.flatMap Telling.departure).map Telling.event) p.2 ∧ p.1 = t.left before) ids
    ⟨hears.nothing s, by simp [left]⟩ ?_
  rintro before ended after u s₁ - ⟨hs₁, hu⟩
  dsimp only at hu
  subst hu
  refine (meets_endTouch hears ended).mono (fun _ => id) ?_
  rintro ⟨v, s₂⟩ ⟨hs₂, hv⟩
  refine ⟨?_, hv.trans (by simp [left])⟩
  rw [List.flatMap_append, List.flatMap_singleton, List.map_append]
  exact hears.more hs₁ hs₂

theorem keys_joined (t : Tracker α) (points : List (TouchPoint α)) :
    (t.joined points).touches.keys = t.touches.keys ++ points.map (·.id) := by
  simp [joined, OrderedMap.keys, Function.comp_def]

theorem keys_left (ht : t.touches.keys.Nodup) (ids : List TouchId) :
    (t.left ids).touches.keys = t.touches.keys.filter (fun id => !ids.contains id) := by
  unfold left
  dsimp only
  generalize t.touches = touches at ht ⊢
  induction ids generalizing touches with
  | nil => simp
  | cons id rest ih =>
      have hkeys : (touches.erase id).keys = touches.keys.filter (fun k => !(k == id)) := by
        unfold OrderedMap.keys
        rw [OrderedMap.entries_erase ht, List.filter_map]
        rfl
      rw [List.foldl_cons, ih _ (hkeys ▸ ht.filter _), hkeys, List.filter_filter]
      refine List.filter_congr (fun k _ => ?_)
      rw [List.contains_cons, Bool.not_or, Bool.and_comm]

theorem keys_moved (t : Tracker α) (points : List (TouchPoint α)) :
    (t.moved points).touches.keys = t.touches.keys :=
  List.foldlRecOn (motive := fun m : OrderedMap TouchId _ => m.keys = t.touches.keys) points _ rfl
    (fun m hm p _ => (OrderedMap.keys_modify m p.id _).trans hm)

/-- A constraint at some place among those with proxies is at some place among all. -/
theorem exists_append_of_filter {cs before after : List (Constraint α)} {c : Constraint α}
    {p : Constraint α → Bool} (h : cs.filter p = before ++ c :: after) :
    ∃ before' after', cs = before' ++ c :: after' ∧ before'.filter p = before ∧ p c = true := by
  obtain ⟨before', rest, rfl, hbefore, hrest⟩ := List.filter_eq_append_iff.mp h
  obtain ⟨skipped, after', rfl, hskipped, hc, -⟩ := List.filter_eq_cons_iff.mp hrest
  refine ⟨before' ++ skipped, after', by simp, ?_, hc⟩
  rw [List.filter_append, hbefore, List.filter_eq_nil_iff.mpr hskipped, List.append_nil]

variable [Scalar α]

/-- What is waiting can be appended to what is applied. -/
theorem foldl_insert_waiting (ht : Constraint.Distinct t.registered)
    {made : List (Constraint α × Constraint α)} (hsource : made.map (·.1) = t.waiting) :
    made.foldl (fun applied e => applied.insert e.1 e.2) t.applied =
      ⟨t.applied.entries ++ made⟩ := by
  refine foldl_insert_eq ?_ (fun e he => ?_)
  · rw [hsource]
    exact List.Pairwise.sublist List.filter_sublist ht
  · have hmem : e.1 ∈ t.waiting := hsource ▸ List.mem_map_of_mem he
    have hnew := (List.mem_filter.mp hmem).2
    simp only [Bool.and_eq_true, Bool.not_eq_true'] at hnew
    exact hnew.1

/-- What is waiting takes its concrete forms, one after another, from values that are
read. -/
theorem meets_mapM_concreteForm (hears : listener.Hears T P) :
    Meets (exec (t.waiting.mapM (fun c => do
      let concrete ← concreteForm listener t c
      return (c, concrete))) s) P (fun p : List (Constraint α × Constraint α) × τ =>
        ∃ values : List (Variable × α), T s (readings values) p.2 ∧ p.1.map (·.1) = t.waiting ∧
          ∀ e ∈ p.1, e.1.FormOf t.touches.keys e.2) := by
  refine meets_mapM (I := fun before (p : List (Constraint α × Constraint α) × τ) =>
    ∃ values : List (Variable × α), T s (readings values) p.2 ∧ p.1.map (·.1) = before ∧
      ∀ e ∈ p.1, e.1.FormOf t.touches.keys e.2) t.waiting
    ⟨[], hears.nothing _, rfl, by simp⟩ ?_
  rintro before c after made u hwaiting ⟨values, hvalues, hsource, hform⟩
  have hfits : t.fits c = true := by
    have hc : c ∈ t.waiting := by simp [hwaiting]
    have hnew := (List.mem_filter.mp hc).2
    simp only [Bool.and_eq_true] at hnew
    exact hnew.2
  refine meets_bind ((meets_concreteForm hears hfits).mono (fun _ => id) ?_)
  rintro p ⟨values', hvalues', hp⟩
  refine meets_pure ⟨values ++ values', ?_, by simp [hsource], ?_⟩
  · rw [readings, List.map_append]
    exact hears.more hvalues hvalues'
  · intro e he
    rcases List.mem_append.mp he with he | he
    · exact hform e he
    · rw [List.mem_singleton.mp he]
      exact hp

/-- Applying is as described. -/
theorem meets_apply (hears : listener.Hears T P) (ht : Constraint.Distinct t.registered) :
    Meets (exec (t.apply listener) s) P (fun p =>
      ∃ tellings, T s (tellings.map Telling.event) p.2 ∧ t.Applies tellings p.1) := by
  unfold Tracker.apply
  refine meets_bind ((meets_mapM_concreteForm hears).mono (fun _ => id) ?_)
  rintro ⟨made, u⟩ ⟨values, hvalues, hsource, hform⟩
  dsimp only at hvalues hsource hform ⊢
  have happlies : t.Applies (Telling.reading values ++ _) _ := .intro hsource hform
  cases made with
  | nil =>
      rw [List.append_nil] at happlies
      refine meets_pure ⟨_, ?_, happlies⟩
      simpa [Telling.adding, event_reading] using hvalues
  | cons e made =>
      refine meets_bind ((hears.added _ _).mono (fun _ => id) (fun p hp => ?_))
      rw [← foldl_insert_waiting ht hsource] at happlies
      refine meets_pure ⟨_, ?_, happlies⟩
      rw [List.map_append, event_reading]
      refine hears.more hvalues ?_
      simpa [Telling.adding, Telling.event, Mention.constraint, Function.comp_def] using hp

/-- A constraint is registered unless one like it is. -/
theorem meets_enroll (c : Constraint α) :
    Meets (exec (t.enroll c : m (Tracker α)) s)
      (fun halt => halt = .breach (.registeredTwice c.name) ∧ t.isRegistered c = true)
      (fun p => t.isRegistered c = false ∧ p = (t.enrolled [c], s)) := by
  unfold Tracker.enroll
  split
  · rename_i hregistered
    exact meets_throw ⟨rfl, hregistered⟩
  · rename_i hregistered
    exact meets_pure ⟨by simpa using hregistered, rfl⟩

/-- Constraints with proxies are registered one after another. -/
theorem meets_foldlM_enroll (ht : Constraint.Distinct t.registered) (cs : List (Constraint α)) :
    Meets (exec ((cs.filter (·.hasProxies)).foldlM enroll t : m (Tracker α)) s)
      (fun halt => ∃ b, halt = .breach b ∧
        TrackerCall.Breaks t.registered t.touches.keys (.register cs) b)
      (fun p => p = (t.enrolled (cs.filter (·.hasProxies)), s) ∧
        Constraint.Distinct (t.registered ++ cs.filter (·.hasProxies))) := by
  refine meets_foldlM (I := fun before p => p = (t.enrolled before, s) ∧
    Constraint.Distinct (t.registered ++ before)) (cs.filter (·.hasProxies))
    ⟨by simp [enrolled], by simpa using ht⟩ ?_
  rintro before c after u s' hcs ⟨hu, hdistinct⟩
  obtain ⟨rfl, rfl⟩ := Prod.mk.inj hu
  obtain ⟨before', after', rfl, rfl, hc⟩ := exists_append_of_filter hcs
  refine (meets_enroll c).mono ?_ ?_
  · rintro halt ⟨rfl, hregistered⟩
    refine ⟨_, rfl, .registeredTwice rfl hc (List.any_eq_true.mpr ?_)⟩
    obtain ⟨r, hr, hrc⟩ := List.any_eq_true.mp hregistered
    rcases List.mem_append.mp hr with hr | hr
    · exact ⟨r, List.mem_append_left _ hr, hrc⟩
    · exact ⟨r, List.mem_append_right _ (List.mem_of_mem_filter hr), hrc⟩
  · rintro p ⟨hnew, rfl⟩
    refine ⟨by simp [enrolled], ?_⟩
    rw [← List.append_assoc]
    exact hdistinct.append hnew

theorem meets_register (hears : listener.Hears T P) (ht : Constraint.Distinct t.registered)
    (cs : List (Constraint α)) :
    Meets (exec (t.register listener cs) s)
      (fun halt => P halt ∨ ∃ b, halt = .breach b ∧
        TrackerCall.Breaks t.registered t.touches.keys (.register cs) b)
      (fun p => ∃ tellings, T s (tellings.map Telling.event) p.2 ∧
        t.Tells (.register cs) tellings p.1) := by
  unfold Tracker.register
  refine meets_bind ((meets_foldlM_enroll ht cs).mono (fun _ => .inr) ?_)
  rintro ⟨u, s'⟩ ⟨hu, hdistinct⟩
  obtain ⟨rfl, rfl⟩ := Prod.mk.inj hu
  refine meets_adding (hears.weaken (fun _ => .inl))
    ((cs.filter (fun c => !c.hasProxies)).map .passed) ?_ (fun u hu => ?_)
  · simp [Mention.constraint, Function.comp_def]
  · refine (meets_apply hears hdistinct).mono (fun _ => .inl) ?_
    rintro p ⟨tellings, hp, happlies⟩
    refine ⟨_, ?_, .register hdistinct happlies⟩
    rw [List.map_append]
    exact hears.more hu hp

/-- One more constraint is taken out, unless it has to be registered and is not. -/
theorem meets_withdraw {u : Tracker α} {before : List (Constraint α)}
    {mentions : List (Mention α)} (hu : t.Withdraws before mentions u) (c : Constraint α) :
    Meets (exec (withdraw (u, mentions.map (·.constraint)) c : m _) s)
      (fun halt => halt = .breach (.notRegistered c.name) ∧ c.hasProxies = true ∧
        u.isRegistered c = false)
      (fun p => p.2 = s ∧ ∃ mentions' : List (Mention α),
        p.1.2 = mentions'.map (·.constraint) ∧ t.Withdraws (before ++ [c]) mentions' p.1.1) := by
  unfold Tracker.withdraw
  dsimp only
  split
  · rename_i hc
    refine meets_pure ⟨rfl, mentions ++ [.passed c], ?_, hu.passed (by simpa using hc)⟩
    simp [Mention.constraint]
  · rename_i hc
    rw [Bool.not_eq_true, Bool.not_eq_false'] at hc
    split
    · rename_i hr
      exact meets_throw ⟨rfl, hc, by simpa using hr⟩
    · rename_i hr
      refine meets_pure ⟨rfl, _, ?_, hu.released hc (by simpa using hr)⟩
      simp [Tracker.form?, OrderedMap.get?, Mention.constraint, Option.map_map,
        Function.comp_def, ← Option.toList_map]

theorem meets_unregister (hears : listener.Hears T P) (ht : t.Orderly)
    (cs : List (Constraint α)) :
    Meets (exec (t.unregister listener cs) s)
      (fun halt => P halt ∨ ∃ b, halt = .breach b ∧
        TrackerCall.Breaks t.registered t.touches.keys (.unregister cs) b)
      (fun p => ∃ tellings, T s (tellings.map Telling.event) p.2 ∧
        t.Tells (.unregister cs) tellings p.1) := by
  unfold Tracker.unregister
  refine meets_bind ?_
  refine (meets_foldlM (I := fun before p => p.2 = s ∧ ∃ mentions : List (Mention α),
    p.1.2 = mentions.map (·.constraint) ∧ t.Withdraws before mentions p.1.1) cs
    ⟨rfl, [], rfl, .nothing⟩ ?_).mono (fun _ => id) ?_
  · rintro before c after ⟨u, removed⟩ s' rfl ⟨rfl, mentions, rfl, hu⟩
    refine (meets_withdraw hu c).mono ?_ (fun _ => id)
    rintro halt ⟨rfl, hc, hr⟩
    exact .inr ⟨_, rfl, .notRegistered rfl hc (hu.any_of_not_isRegistered ht hr)⟩
  · rintro ⟨⟨u, removed⟩, s'⟩ ⟨hs, mentions, hremoved, hu⟩
    dsimp only at hs hremoved hu ⊢
    subst hs hremoved
    refine meets_removing (hears.weaken (fun _ => .inl)) mentions rfl (fun u hu' => ?_)
    exact meets_pure ⟨_, hu', .unregister hu⟩

/-- Touches begin one after another: those that have begun join the others, and none of
them was active. -/
theorem meets_foldlM_beginTouch (hears : listener.Hears T P) (ht : t.Orderly)
    (points : List (TouchPoint α)) :
    Meets (exec (points.foldlM (beginTouch listener) { t with applied := .empty }) s)
      (fun halt => P halt ∨ ∃ b, halt = .breach b ∧
        TrackerCall.Breaks t.registered t.touches.keys (.beginTouches points) b)
      (fun p => T s ((points.flatMap (Telling.arrival t.settings.touchStrength)).map
          Telling.event) p.2 ∧
        (t.touches.keys ++ points.map (·.id)).Nodup ∧ p.1 = t.joined points) := by
  refine meets_foldlM (I := fun before p => T s
    ((before.flatMap (Telling.arrival t.settings.touchStrength)).map Telling.event) p.2 ∧
      (t.touches.keys ++ before.map (·.id)).Nodup ∧ p.1 = t.joined before) points
    ⟨hears.nothing s, by simpa using ht.touches, by simp [joined]⟩ ?_
  rintro before p after u s₁ rfl ⟨hs₁, hdistinct, hu⟩
  dsimp only at hu
  subst hu
  have hkeys := keys_joined t before
  refine (meets_beginTouch hears p).mono ?_ ?_
  · rintro halt (hhalt | ⟨rfl, hp⟩)
    · exact .inl hhalt
    · exact .inr ⟨_, rfl, .begunTwice rfl (hkeys ▸ hp)⟩
  · rintro ⟨v, s₂⟩ ⟨hp, hs₂, hv⟩
    rw [hkeys] at hp
    refine ⟨?_, ?_, ?_⟩
    · rw [List.flatMap_append, List.flatMap_singleton, List.map_append]
      exact hears.more hs₁ hs₂
    · rw [List.map_append, ← List.append_assoc]
      refine List.nodup_append'.mpr ⟨hdistinct, List.nodup_singleton _, ?_⟩
      exact List.disjoint_singleton.mpr hp
    · rw [hv]
      simp [joined]

theorem meets_beginTouches (hears : listener.Hears T P) (ht : t.Orderly)
    (points : List (TouchPoint α)) :
    Meets (exec (t.beginTouches listener points) s)
      (fun halt => P halt ∨ ∃ b, halt = .breach b ∧
        TrackerCall.Breaks t.registered t.touches.keys (.beginTouches points) b)
      (fun p => ∃ tellings, T s (tellings.map Telling.event) p.2 ∧
        t.Tells (.beginTouches points) tellings p.1) := by
  unfold Tracker.beginTouches
  split
  · rename_i hpoints
    rw [List.isEmpty_iff] at hpoints
    subst hpoints
    exact meets_pure ⟨[], hears.nothing s, .beginNone⟩
  · rename_i hpoints
    have hpoints : points ≠ [] := by simpa using hpoints
    refine meets_bind ((meets_retract hears).mono (fun _ => .inl) ?_)
    rintro ⟨u, s₁⟩ ⟨hs₁, rfl⟩
    refine meets_bind ((meets_foldlM_beginTouch hears ht points).mono (fun _ => id) ?_)
    rintro ⟨u, s₂⟩ ⟨hs₂, hdistinct, hu⟩
    dsimp only at hu
    subst hu
    refine (meets_apply hears (t := t.joined points) ht.registered).mono (fun _ => .inl) ?_
    rintro ⟨v, s₃⟩ ⟨tellings, hs₃, happlies⟩
    refine ⟨_, ?_, .begin hpoints hdistinct happlies⟩
    rw [List.map_append, List.map_append]
    exact hears.more (hears.more hs₁ hs₂) hs₃

theorem meets_moveTouches (hears : listener.Hears T P) (points : List (TouchPoint α)) :
    Meets (exec (t.moveTouches listener points) s) P
      (fun p => ∃ tellings, T s (tellings.map Telling.event) p.2 ∧
        t.Tells (.moveTouches points) tellings p.1) := by
  unfold Tracker.moveTouches
  refine (meets_foldlM (I := fun before p => T s (((before.filter (fun p =>
    t.touches.contains p.id)).flatMap Telling.suggestion).map Telling.event) p.2 ∧
    p.1 = t.moved before) points ⟨hears.nothing s, rfl⟩ ?_).mono (fun _ => id) ?_
  · rintro before p after u s₁ - ⟨hs₁, hu⟩
    dsimp only at hu
    subst hu
    have hcontains : ∀ id, (t.moved before).touches.contains id = t.touches.contains id := by
      intro id
      rw [OrderedMap.contains_eq_any_keys, keys_moved, ← OrderedMap.contains_eq_any_keys]
    refine (meets_moveTouch hears p).mono (fun _ => id) ?_
    rintro ⟨u, s₂⟩ ⟨hs₂, hu⟩
    refine ⟨?_, hu.trans (by simp [moved])⟩
    simp only [hcontains] at hs₂
    rw [List.filter_append, List.flatMap_append, List.map_append]
    exact hears.more hs₁ hs₂
  · rintro ⟨u, s₁⟩ ⟨hs₁, hu⟩
    exact ⟨_, hs₁, hu ▸ .move⟩

theorem meets_endTouches (hears : listener.Hears T P) (ht : t.Orderly) (ids : List TouchId)
    {call : TrackerCall α} (hcall : call = .endTouches ids ∨ call = .cancelTouches ids) :
    Meets (exec (t.endTouches listener ids) s) P
      (fun p => ∃ tellings, T s (tellings.map Telling.event) p.2 ∧ t.Tells call tellings p.1) := by
  unfold Tracker.endTouches
  dsimp only
  split
  · rename_i hnone
    exact meets_pure ⟨[], hears.nothing s, .endNone hcall (List.isEmpty_iff.mp hnone)⟩
  · rename_i hsome
    have hsome : ids.filter t.touches.contains ≠ [] := by simpa using hsome
    refine meets_bind ((meets_retract hears).mono (fun _ => id) ?_)
    rintro ⟨u, s₁⟩ ⟨hs₁, rfl⟩
    refine meets_bind ((meets_foldlM_endTouch hears _).mono (fun _ => id) ?_)
    rintro ⟨u, s₂⟩ ⟨hs₂, hu⟩
    dsimp only at hu
    subst hu
    refine (meets_apply hears (t := t.left _) ht.registered).mono (fun _ => id) ?_
    rintro ⟨v, s₃⟩ ⟨tellings, hs₃, happlies⟩
    refine ⟨_, ?_, .ended hcall hsome happlies⟩
    rw [List.map_append, List.map_append]
    exact hears.more (hears.more hs₁ hs₂) hs₃

/-- Every call is as described; if it halts, then the listener did or a promise is
broken. -/
theorem meets_perform (hears : listener.Hears T P) (ht : t.Orderly) (call : TrackerCall α) :
    Meets (exec (t.perform listener call) s)
      (fun halt => P halt ∨ ∃ b, halt = .breach b ∧ call.Breaks t.registered t.touches.keys b)
      (fun p => ∃ tellings, T s (tellings.map Telling.event) p.2 ∧ t.Tells call tellings p.1) := by
  cases call with
  | register cs => exact meets_register hears ht.registered cs
  | unregister cs => exact meets_unregister hears ht cs
  | beginTouches points => exact meets_beginTouches hears ht points
  | moveTouches points =>
      exact (meets_moveTouches hears points).mono (fun _ => .inl) (fun _ => id)
  | endTouches ids =>
      exact (meets_endTouches hears ht ids (.inl rfl)).mono (fun _ => .inl) (fun _ => id)
  | cancelTouches ids =>
      exact (meets_endTouches hears ht ids (.inr rfl)).mono (fun _ => .inl) (fun _ => id)

end Performing

end Tether
