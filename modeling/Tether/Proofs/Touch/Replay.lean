import Mathlib.Data.Multiset.AddSub
import Tether.Proofs.Touch.Fitting

/-!
# Replaying what a tracker tells

A listener that replays what it is told about the concrete forms of a tracker never
removes a form that is not live, and is left with what is applied.  At every moment
the touches in the live forms have their edit variables: these were added and took a
position before, and were not removed since.
-/

namespace Tether

open Simplex Stateful

variable {α : Type}

section Replaying

/-- The concrete form that is told of. -/
def Mention.form? : Mention α → Option (Form α)
  | .passed _ => none
  | .formed f => some f

/-- The constraint that the caller passed on. -/
def Mention.passed? : Mention α → Option (Constraint α)
  | .passed c => some c
  | .formed _ => none

@[simp] theorem Mention.form?_passed (c : Constraint α) : (passed c).form? = none :=
  rfl

@[simp] theorem Mention.form?_formed (f : Form α) : (formed f).form? = some f :=
  rfl

@[simp] theorem Mention.passed?_passed (c : Constraint α) : (passed c).passed? = some c :=
  rfl

@[simp] theorem Mention.passed?_formed (f : Form α) : (formed f).passed? = none :=
  rfl

namespace Telling

/-- The concrete forms that are added. -/
def made : Telling α → List (Form α)
  | .added mentions => mentions.filterMap (·.form?)
  | _ => []

/-- The concrete forms that are removed. -/
def unmade : Telling α → List (Form α)
  | .removed mentions => mentions.filterMap (·.form?)
  | _ => []

/-- The caller's constraints that are added. -/
def passedOn : Telling α → List (Constraint α)
  | .added mentions => mentions.filterMap (·.passed?)
  | _ => []

/-- The caller's constraints that are removed. -/
def takenBack : Telling α → List (Constraint α)
  | .removed mentions => mentions.filterMap (·.passed?)
  | _ => []

/-- Replaying leaves some forms live.  What is removed has to be live before. -/
inductive Replays : List (Telling α) → Multiset (Form α) → Prop
  | nothing : Replays [] 0
  | next {tellings : List (Telling α)} {live live' : Multiset (Form α)} {telling : Telling α}
      (h : Replays tellings live)
      (hnext : live + ↑telling.made = live' + ↑telling.unmade) :
      Replays (tellings ++ [telling]) live'

/-- An edit variable was added and then took a value, and was not removed since. -/
def Placed (tellings : List (Telling α)) (v : Variable) : Prop :=
  ∃ before after strength, tellings = before ++ .edited v (.added strength) :: after ∧
    (∃ x, .edited v (.suggested x) ∈ after) ∧ .edited v .removed ∉ after

/-- Both edit variables of a touch are placed. -/
def Ready (tellings : List (Telling α)) (id : TouchId) : Prop :=
  ∀ property ∈ [Property.positionX, Property.positionY], Placed tellings (.ofTouch id property)

/-- Replaying leaves some forms live, and at every moment the touches in the live forms
are ready. -/
inductive Consistent : List (Telling α) → Multiset (Form α) → Prop
  | nothing : Consistent [] 0
  | next {tellings : List (Telling α)} {live live' : Multiset (Form α)} {telling : Telling α}
      (h : Consistent tellings live)
      (hnext : live + ↑telling.made = live' + ↑telling.unmade)
      (hready : ∀ f ∈ live', ∀ id ∈ f.touches, Ready (tellings ++ [telling]) id) :
      Consistent (tellings ++ [telling]) live'

variable {tellings more : List (Telling α)} {live : Multiset (Form α)}

theorem Consistent.ready (h : Consistent tellings live) :
    ∀ f ∈ live, ∀ id ∈ f.touches, Ready tellings id := by
  cases h with
  | nothing => intro f hf; simp at hf
  | next h hnext hready => exact hready

theorem Consistent.replays (h : Consistent tellings live) : Replays tellings live := by
  induction h with
  | nothing => exact .nothing
  | next h hnext hready ih => exact ih.next hnext

/-- What is consistent can be replayed up to any moment. -/
theorem Consistent.exists_replays (h : Consistent tellings live) {before after : List (Telling α)}
    (heq : tellings = before ++ after) :
    ∃ live', Replays before live' ∧ ∀ f ∈ live', ∀ id ∈ f.touches, Ready before id := by
  induction h generalizing after with
  | nothing =>
      obtain ⟨rfl, rfl⟩ := List.append_eq_nil_iff.mp heq.symm
      exact ⟨0, .nothing, by simp⟩
  | next h hnext hready ih =>
      obtain rfl | ⟨after', last, rfl⟩ := after.eq_nil_or_concat'
      · rw [List.append_nil] at heq
        exact ⟨_, heq ▸ h.replays.next hnext, heq ▸ hready⟩
      · rw [← List.append_assoc] at heq
        exact ih (List.append_inj' heq rfl).1

theorem Placed.append {v : Variable} (h : Placed tellings v)
    (hmore : .edited v .removed ∉ more) : Placed (tellings ++ more) v := by
  obtain ⟨before, after, strength, rfl, ⟨x, hx⟩, hremoved⟩ := h
  refine ⟨before, after ++ more, strength, by simp, ⟨x, List.mem_append_left _ hx⟩, ?_⟩
  rw [List.mem_append]
  exact not_or.mpr ⟨hremoved, hmore⟩

theorem Ready.append {id : TouchId} (h : Ready tellings id)
    (hmore : ∀ property, .edited (.ofTouch id property) .removed ∉ more) :
    Ready (tellings ++ more) id :=
  fun property hproperty => (h property hproperty).append (hmore property)

/-- What is live stays so while no forms are told of, as long as the edit variables of
its touches stay. -/
theorem Consistent.append_quiet (h : Consistent tellings live)
    (hquiet : ∀ telling ∈ more, telling.made = [] ∧ telling.unmade = [])
    (hmore : ∀ f ∈ live, ∀ id ∈ f.touches, ∀ property,
      .edited (.ofTouch id property) .removed ∉ more) : Consistent (tellings ++ more) live := by
  induction more generalizing tellings with
  | nil => rwa [List.append_nil]
  | cons telling rest ih =>
      obtain ⟨hmade, hunmade⟩ := hquiet telling (List.mem_cons_self ..)
      have hnext : Consistent (tellings ++ [telling]) live := by
        refine h.next (by rw [hmade, hunmade]) (fun f hf id hid => ?_)
        refine (h.ready f hf id hid).append (fun property hmem => ?_)
        refine hmore f hf id hid property ?_
        rw [List.mem_singleton.mp hmem]
        exact List.mem_cons_self ..
      have := ih hnext (fun t ht => hquiet t (List.mem_cons_of_mem _ ht))
        (fun f hf id hid property hmem =>
          hmore f hf id hid property (List.mem_cons_of_mem _ hmem))
      rwa [List.append_assoc] at this

theorem filterMap_form?_formed (forms : List (Form α)) :
    (forms.map Mention.formed).filterMap Mention.form? = forms := by
  simp [List.filterMap_map, Function.comp_def]

/-- Forms of ready touches can be added. -/
theorem Consistent.append_adding (h : Consistent tellings live) (forms : List (Form α))
    (hready : ∀ f ∈ forms, ∀ id ∈ f.touches, Ready tellings id) :
    Consistent (tellings ++ adding (forms.map .formed)) (live + ↑forms) := by
  unfold adding
  split
  · rename_i hempty
    have hforms : forms = [] := by simpa using hempty
    rw [hforms, List.append_nil, Multiset.coe_nil, Multiset.add_zero]
    exact h
  · refine h.next ?_ (fun f hf id hid => ?_)
    · show live + ↑((forms.map Mention.formed).filterMap Mention.form?) = live + ↑forms + 0
      rw [filterMap_form?_formed, Multiset.add_zero]
    · refine Ready.append ?_ (fun property hmem => by simp at hmem)
      rcases Multiset.mem_add.mp hf with hf | hf
      · exact h.ready f hf id hid
      · exact hready f hf id hid

/-- Live forms can be removed. -/
theorem Consistent.append_removing {mentions : List (Mention α)}
    (h : Consistent tellings (live + ↑(mentions.filterMap (·.form?)))) :
    Consistent (tellings ++ removing mentions) live := by
  unfold removing
  split
  · rename_i hempty
    rw [List.isEmpty_iff.mp hempty, List.filterMap_nil, Multiset.coe_nil, Multiset.add_zero] at h
    rwa [List.append_nil]
  · refine h.next ?_ (fun f hf id hid => ?_)
    · exact Multiset.add_zero _
    · refine Ready.append ?_ (fun property hmem => by simp at hmem)
      exact h.ready f (Multiset.mem_add.mpr (.inl hf)) id hid

end Telling

end Replaying

section Accounts

/-- The constraints that a call passes on to be added. -/
def TrackerCall.passesOn : TrackerCall α → List (Constraint α)
  | .register cs => cs.filter (fun c => !c.hasProxies)
  | _ => []

/-- The constraints that a call passes on to be removed. -/
def TrackerCall.takesBack : TrackerCall α → List (Constraint α)
  | .unregister cs => cs.filter (fun c => !c.hasProxies)
  | _ => []

/-- What a call tells accounts for every constraint: those that the call passes on, and
concrete forms of proxy constraints. -/
structure TrackerCall.Accounts (call : TrackerCall α) (tellings : List (Telling α)) : Prop where
  passedOn : tellings.flatMap Telling.passedOn = call.passesOn
  takenBack : tellings.flatMap Telling.takenBack = call.takesBack
  made : ∀ f ∈ tellings.flatMap Telling.made, f.source.FormOf f.touches f.concrete

end Accounts

namespace Tracker

open Telling

variable {t u : Tracker α} {told tellings : List (Telling α)} {call : TrackerCall α}

section Stages

/-- Where a replay stands between the steps of a tracker: what is live is what is applied,
and the active touches are ready. -/
structure Stage (told : List (Telling α)) (t : Tracker α) : Prop where
  consistent : Consistent told ↑t.forms
  ready : ∀ id ∈ t.touches.keys, Ready told id

/-- Steps that tell of no forms lead to a stage if the touches are ready afterwards. -/
theorem Stage.quiet (ht : Stage told t) (hforms : u.forms = t.forms)
    (hquiet : ∀ telling ∈ tellings, telling.made = [] ∧ telling.unmade = [])
    (hmore : ∀ f ∈ t.forms, ∀ id ∈ f.touches, ∀ property,
      .edited (.ofTouch id property) .removed ∉ tellings)
    (hready : ∀ id ∈ u.touches.keys, Ready (told ++ tellings) id) :
    Stage (told ++ tellings) u := by
  refine ⟨?_, hready⟩
  rw [hforms]
  exact ht.consistent.append_quiet hquiet hmore

theorem Stage.reading (ht : Stage told t) (values : List (Variable × α)) :
    Stage (told ++ Telling.reading values) t := by
  have hmore : ∀ id property, .edited (.ofTouch id property) .removed ∉
      Telling.reading values := by
    intro id property hmem
    obtain ⟨r, -, hr⟩ := List.mem_map.mp hmem
    cases hr
  refine ht.quiet rfl (fun telling htelling => ?_) (fun _ _ id _ => hmore id)
    (fun id hid => (ht.ready id hid).append (hmore id))
  obtain ⟨r, -, rfl⟩ := List.mem_map.mp htelling
  exact ⟨rfl, rfl⟩

theorem not_mem_adding (v : Variable) (change : EditChange α) (mentions : List (Mention α)) :
    .edited v change ∉ Telling.adding mentions := by
  intro h
  cases Telling.eq_of_mem_adding h

theorem not_mem_removing (v : Variable) (change : EditChange α) (mentions : List (Mention α)) :
    .edited v change ∉ Telling.removing mentions := by
  intro h
  cases Telling.eq_of_mem_removing h

theorem Stage.passing (ht : Stage told t) (cs : List (Constraint α)) :
    Stage (told ++ Telling.adding (cs.map .passed)) t := by
  refine ht.quiet rfl (fun telling htelling => ?_) (fun _ _ _ _ _ => not_mem_adding _ _ _)
    (fun id hid => (ht.ready id hid).append (fun _ => not_mem_adding _ _ _))
  rw [Telling.eq_of_mem_adding htelling]
  refine ⟨?_, rfl⟩
  simp [made, List.filterMap_map, Function.comp_def]

/-- After everything is retracted, nothing is live. -/
theorem Stage.retraction (ht : Stage told t) :
    Stage (told ++ t.retraction) { t with applied := .empty } where
  consistent := by
    refine Consistent.append_removing ?_
    rw [filterMap_form?_formed]
    simpa [forms, OrderedMap.empty] using ht.consistent
  ready := fun id hid => (ht.ready id hid).append (fun _ => not_mem_removing _ _ _)

theorem ready_arrival (told : List (Telling α)) (strength : Strength α) (p : TouchPoint α) :
    Ready (told ++ Telling.arrival strength p) p.id := by
  intro property hproperty
  rcases List.mem_pair.mp hproperty with rfl | rfl
  · refine ⟨told, _, strength, rfl, ⟨p.x, List.mem_cons_self ..⟩, ?_⟩
    simp
  · refine ⟨told ++ [.edited (.ofTouch p.id .positionX) (.added strength),
      .edited (.ofTouch p.id .positionX) (.suggested p.x)],
      [.edited (.ofTouch p.id .positionY) (.suggested p.y)], strength, ?_, ⟨p.y, ?_⟩, ?_⟩
    · simp [Telling.arrival, TouchPoint.coordinates]
    · simp
    · simp

theorem mem_arrival {strength : Strength α} {points : List (TouchPoint α)} {telling : Telling α}
    (h : telling ∈ points.flatMap (Telling.arrival strength)) :
    ∃ v change, telling = .edited v change ∧ change ≠ .removed := by
  obtain ⟨p, -, h⟩ := List.mem_flatMap.mp h
  obtain ⟨c, -, h⟩ := List.mem_flatMap.mp h
  rcases List.mem_pair.mp h with rfl | rfl <;> exact ⟨_, _, rfl, by simp⟩

theorem Stage.joined (ht : Stage told t) (happlied : t.applied = .empty)
    (strength : Strength α) (points : List (TouchPoint α)) :
    Stage (told ++ points.flatMap (Telling.arrival strength)) (t.joined points) := by
  have hforms : t.forms = [] := by rw [forms, happlied]; rfl
  have hmore : ∀ (points : List (TouchPoint α)) v,
      .edited v .removed ∉ points.flatMap (Telling.arrival strength) := by
    intro points v hmem
    obtain ⟨w, change, heq, hchange⟩ := mem_arrival hmem
    cases heq
    exact hchange rfl
  refine ht.quiet hforms.symm (fun telling htelling => ?_) (by simp [hforms]) (fun id hid => ?_)
  · obtain ⟨v, change, rfl, -⟩ := mem_arrival htelling
    exact ⟨rfl, rfl⟩
  · rw [keys_joined] at hid
    rcases List.mem_append.mp hid with hid | hid
    · exact (ht.ready id hid).append (fun _ => hmore _ _)
    · obtain ⟨p, hp, rfl⟩ := List.mem_map.mp hid
      obtain ⟨before, after, rfl⟩ := List.append_of_mem hp
      rw [List.flatMap_append, List.flatMap_cons, ← List.append_assoc, ← List.append_assoc]
      exact (ready_arrival _ strength p).append (fun _ => hmore _ _)

theorem Stage.moved (ht : Stage told t) (points moved : List (TouchPoint α)) :
    Stage (told ++ moved.flatMap Telling.suggestion) (t.moved points) := by
  have hsuggested : ∀ telling ∈ moved.flatMap Telling.suggestion,
      ∃ v x, telling = .edited v (.suggested x) := by
    intro telling h
    obtain ⟨p, -, h⟩ := List.mem_flatMap.mp h
    obtain ⟨c, -, rfl⟩ := List.mem_map.mp h
    exact ⟨_, _, rfl⟩
  have hmore : ∀ v, .edited v .removed ∉ moved.flatMap Telling.suggestion := by
    intro v hmem
    obtain ⟨w, x, heq⟩ := hsuggested _ hmem
    cases heq
  refine ht.quiet ?_ (fun telling htelling => ?_) (fun _ _ _ _ _ => hmore _) (fun id hid => ?_)
  · rw [forms, keys_moved]
    rfl
  · obtain ⟨v, x, rfl⟩ := hsuggested telling htelling
    exact ⟨rfl, rfl⟩
  · rw [keys_moved] at hid
    exact (ht.ready id hid).append (fun _ => hmore _)

theorem Stage.left (ht : Stage told t) (happlied : t.applied = .empty)
    (hkeys : t.touches.keys.Nodup) (ids : List TouchId) :
    Stage (told ++ ids.flatMap Telling.departure) (t.left ids) := by
  have hforms : t.forms = [] := by rw [forms, happlied]; rfl
  have hgone : ∀ telling : Telling α, telling ∈ ids.flatMap Telling.departure →
      ∃ id ∈ ids, ∃ property, telling = .edited (.ofTouch id property) .removed := by
    intro telling h
    obtain ⟨id, hid, h⟩ := List.mem_flatMap.mp h
    rcases List.mem_pair.mp h with rfl | rfl <;> exact ⟨id, hid, _, rfl⟩
  refine ht.quiet hforms.symm (fun telling htelling => ?_) (by simp [hforms]) (fun id hid => ?_)
  · obtain ⟨id, -, property, rfl⟩ := hgone telling htelling
    exact ⟨rfl, rfl⟩
  · rw [keys_left hkeys, List.mem_filter] at hid
    refine (ht.ready id hid.1).append (fun property hmem => ?_)
    obtain ⟨id', hid', property', heq⟩ := hgone _ hmem
    have : id = id' := by
      simp only [Telling.edited.injEq, Variable.ofTouch, Variable.mk.injEq, Target.touch.injEq]
        at heq
      exact heq.1.1
    subst this
    simp [hid'] at hid

theorem stage_empty (settings : Settings α) : Stage [] (empty settings) where
  consistent := .nothing
  ready := by simp [empty, OrderedMap.empty, OrderedMap.keys]

variable [Scalar α]

theorem Applies.stage (h : t.Applies tellings u) (ht : Stage told t) :
    Stage (told ++ tellings) u := by
  obtain ⟨hsource, hform⟩ := h
  rename_i values made
  have hread := ht.reading values
  have hforms : made.map (fun e => Mention.formed ⟨e.1, e.2, t.touches.keys⟩) =
      (made.map (fun e => (⟨e.1, e.2, t.touches.keys⟩ : Form α))).map .formed := by
    rw [List.map_map]
    rfl
  rw [hforms, ← List.append_assoc]
  refine ⟨?_, fun id hid => (hread.ready id hid).append (fun _ => not_mem_adding _ _ _)⟩
  have happlied : ({ t with applied := ⟨t.applied.entries ++ made⟩ } : Tracker α).forms =
      t.forms ++ made.map (fun e => ⟨e.1, e.2, t.touches.keys⟩) := List.map_append
  rw [happlied, ← Multiset.coe_add]
  refine hread.consistent.append_adding _ (fun f hf id hid => ?_)
  obtain ⟨e, -, rfl⟩ := List.mem_map.mp hf
  exact hread.ready id hid

/-- What goes with a constraint is its concrete form. -/
theorem forms_released (t : Tracker α) (c : Constraint α) :
    (↑t.forms : Multiset (Form α)) = ↑(t.released c).forms + ↑(t.form? c).toList := by
  unfold form?
  cases hfind : t.applied.find? c with
  | none =>
      have herase : t.applied.erase c = t.applied := by
        refine congrArg OrderedMap.mk (List.eraseP_of_forall_not (fun e he => ?_))
        exact List.find?_eq_none.mp hfind e he
      simp [forms, released, herase]
  | some e =>
      obtain ⟨before, after, hentries, herase⟩ := OrderedMap.exists_append_of_find? hfind
      simp only [forms, released, hentries, herase, Option.map_some, Option.toList_some,
        List.map_append, List.map_cons]
      rw [Multiset.coe_add, Multiset.coe_eq_coe, List.append_assoc]
      exact (List.perm_append_singleton ..).symm.append_left _

/-- What is taken out is what has to be removed. -/
theorem Withdraws.forms_eq {cs : List (Constraint α)} {mentions : List (Mention α)}
    (h : t.Withdraws cs mentions u) :
    (↑t.forms : Multiset (Form α)) = ↑u.forms + ↑(mentions.filterMap (·.form?)) := by
  induction h with
  | nothing => simp
  | passed h hc ih =>
      rw [ih, List.filterMap_append, List.filterMap_cons_none rfl, List.filterMap_nil,
        List.append_nil]
  | @released cs mentions u c h hc hr ih =>
      rw [ih, forms_released u c, List.filterMap_append, filterMap_form?_formed,
        ← Multiset.coe_add, Multiset.add_assoc, Multiset.add_right_inj]
      exact Multiset.add_comm _ _

theorem Withdraws.stage {cs : List (Constraint α)} {mentions : List (Mention α)}
    (h : t.Withdraws cs mentions u) (ht : Stage told t) :
    Stage (told ++ Telling.removing mentions) u where
  consistent := Consistent.append_removing (h.forms_eq ▸ ht.consistent)
  ready := by
    intro id hid
    rw [h.touches] at hid
    exact (ht.ready id hid).append (fun _ => not_mem_removing _ _ _)

/-- A call goes from stage to stage. -/
theorem Tells.stage (h : t.Tells call tellings u) (ht : t.Orderly) (hs : Stage told t) :
    Stage (told ++ tellings) u := by
  cases h with
  | @register cs _ _ distinct h =>
      rw [← List.append_assoc]
      refine h.stage ?_
      have := hs.passing (cs.filter (fun c => !c.hasProxies))
      exact ⟨this.consistent, this.ready⟩
  | unregister h => exact h.stage hs
  | beginNone => rwa [List.append_nil]
  | begin some distinct h =>
      rw [← List.append_assoc, ← List.append_assoc]
      exact h.stage (hs.retraction.joined rfl _ _)
  | move => exact hs.moved _ _
  | endNone hcall none => rwa [List.append_nil]
  | ended hcall some h =>
      rw [← List.append_assoc, ← List.append_assoc]
      exact h.stage (hs.retraction.left rfl ht.touches _)

theorem Recounts.stage {calls : List (TrackerCall α)} {chapters : List (List (Telling α))}
    (h : t.Recounts calls chapters u) (ht : t.Orderly) (hs : Stage told t) :
    Stage (told ++ chapters.flatten) u := by
  induction h with
  | nothing => rwa [List.flatten_nil, List.append_nil]
  | call h hcall ih =>
      rw [List.flatten_append, ← List.append_assoc]
      simpa using hcall.stage (h.orderly ht) ih

end Stages

section Accounting

/-- Something that a tracker tells of itself: no constraint in it is the caller's, and
the concrete forms that are added are forms of their constraints. -/
structure Own (telling : Telling α) : Prop where
  passedOn : telling.passedOn = []
  takenBack : telling.takenBack = []
  made : ∀ f ∈ telling.made, f.source.FormOf f.touches f.concrete

theorem own_edited (v : Variable) (change : EditChange α) : Own (.edited v change) :=
  ⟨rfl, rfl, by simp [Telling.made]⟩

theorem own_retraction (t : Tracker α) : ∀ telling ∈ t.retraction, Own telling := by
  intro telling h
  rw [Telling.eq_of_mem_removing h]
  refine ⟨rfl, ?_, by simp [Telling.made]⟩
  simp [Telling.takenBack, List.filterMap_map, Function.comp_def]

theorem own_arrival (strength : Strength α) (points : List (TouchPoint α)) :
    ∀ telling ∈ points.flatMap (Telling.arrival strength), Own telling := by
  intro telling h
  obtain ⟨v, change, rfl, -⟩ := mem_arrival h
  exact own_edited v change

theorem own_suggestion (points : List (TouchPoint α)) :
    ∀ telling ∈ points.flatMap Telling.suggestion, Own telling := by
  intro telling h
  obtain ⟨p, -, h⟩ := List.mem_flatMap.mp h
  obtain ⟨c, -, rfl⟩ := List.mem_map.mp h
  exact own_edited _ _

theorem own_departure (ids : List TouchId) :
    ∀ telling : Telling α, telling ∈ ids.flatMap Telling.departure → Own telling := by
  intro telling h
  obtain ⟨id, -, h⟩ := List.mem_flatMap.mp h
  rcases List.mem_pair.mp h with rfl | rfl <;> exact own_edited _ _

/-- What a tracker tells of itself adds nothing to the account of a call. -/
theorem accounts_append {first rest : List (Telling α)} (hfirst : call.Accounts first)
    (hrest : ∀ telling ∈ rest, Own telling) : call.Accounts (first ++ rest) where
  passedOn := by
    rw [List.flatMap_append, hfirst.passedOn,
      List.flatMap_eq_nil_iff.mpr (fun telling h => (hrest telling h).passedOn), List.append_nil]
  takenBack := by
    rw [List.flatMap_append, hfirst.takenBack,
      List.flatMap_eq_nil_iff.mpr (fun telling h => (hrest telling h).takenBack), List.append_nil]
  made := by
    intro f hf
    rw [List.flatMap_append] at hf
    rcases List.mem_append.mp hf with hf | hf
    · exact hfirst.made f hf
    · obtain ⟨telling, h, hf⟩ := List.mem_flatMap.mp hf
      exact (hrest telling h).made f hf

theorem accounts_nil (hon : call.passesOn = []) (hback : call.takesBack = []) :
    call.Accounts [] :=
  ⟨hon.symm, hback.symm, by simp⟩

/-- What a tracker tells of itself accounts for a call that passes on and takes back
nothing. -/
theorem accounts_of_own {tellings : List (Telling α)} (hon : call.passesOn = [])
    (hback : call.takesBack = []) (h : ∀ telling ∈ tellings, Own telling) :
    call.Accounts tellings := by
  have hnil := accounts_append (accounts_nil hon hback) h
  rwa [List.nil_append] at hnil

theorem accounts_adding (cs : List (Constraint α)) :
    (TrackerCall.register cs).Accounts
      (Telling.adding ((cs.filter (fun c => !c.hasProxies)).map .passed)) := by
  unfold Telling.adding
  split
  · rename_i hnone
    exact accounts_nil (by simpa [TrackerCall.passesOn] using hnone) rfl
  · refine ⟨?_, rfl, fun f hf => ?_⟩
    · simp [Telling.passedOn, List.filterMap_map, Function.comp_def, TrackerCall.passesOn]
    · simp [Telling.made, List.filterMap_map, Function.comp_def] at hf

variable [Scalar α]

theorem Withdraws.accounts {cs : List (Constraint α)} {mentions : List (Mention α)}
    (h : t.Withdraws cs mentions u) :
    (TrackerCall.unregister cs).Accounts (Telling.removing mentions) := by
  have hback : mentions.filterMap (·.passed?) = cs.filter (fun c => !c.hasProxies) := by
    induction h with
    | nothing => rfl
    | passed h hc ih => simp [ih, hc]
    | released h hc hr ih => simp [ih, hc, List.filterMap_map, Function.comp_def]
  unfold Telling.removing
  split
  · rename_i hnone
    rw [List.isEmpty_iff.mp hnone] at hback
    exact accounts_nil rfl hback.symm
  · refine ⟨rfl, ?_, by simp [Telling.made]⟩
    rw [List.flatMap_singleton]
    exact hback

theorem Applies.own (h : t.Applies tellings u) : ∀ telling ∈ tellings, Own telling := by
  obtain ⟨-, hform⟩ := h
  intro telling h
  rcases List.mem_append.mp h with h | h
  · obtain ⟨r, -, rfl⟩ := List.mem_map.mp h
    exact ⟨rfl, rfl, by simp [Telling.made]⟩
  · rw [Telling.eq_of_mem_adding h]
    refine ⟨?_, rfl, fun f hf => ?_⟩
    · simp [Telling.passedOn, List.filterMap_map, Function.comp_def]
    · obtain ⟨mention, hmention, hf⟩ := List.mem_filterMap.mp hf
      obtain ⟨e, he, rfl⟩ := List.mem_map.mp hmention
      cases hf
      exact hform e he

/-- What a call tells accounts for every constraint in it. -/
theorem Tells.accounts (h : t.Tells call tellings u) : call.Accounts tellings := by
  cases h with
  | register distinct h => exact accounts_append (accounts_adding _) h.own
  | unregister h => exact h.accounts
  | beginNone => exact accounts_nil rfl rfl
  | begin some distinct h =>
      refine accounts_append (accounts_append ?_ (own_arrival _ _)) h.own
      exact accounts_of_own rfl rfl (own_retraction t)
  | move => exact accounts_of_own rfl rfl (own_suggestion _)
  | endNone hcall none => rcases hcall with rfl | rfl <;> exact accounts_nil rfl rfl
  | ended hcall some h =>
      refine accounts_append (accounts_append ?_ (own_departure _)) h.own
      rcases hcall with rfl | rfl <;> exact accounts_of_own rfl rfl (own_retraction t)

theorem Recounts.accounts {calls : List (TrackerCall α)} {chapters : List (List (Telling α))}
    (h : t.Recounts calls chapters u) : List.Forall₂ TrackerCall.Accounts calls chapters := by
  induction h with
  | nothing => exact .nil
  | call h hcall ih => exact List.rel_append ih (.cons hcall.accounts .nil)

end Accounting

section Results

variable [Scalar α] {σ : Type}

/-- What a tracker tells can be told apart, call by call, into the constraints that the
calls pass on and the concrete forms that the tracker makes.  At every moment the forms can
be replayed, and the touches in the live ones are ready; and after each call those are
live that are applied. -/
theorem forms_are_told_consistently (settings : Settings α)
    (listener : Listener (StateT σ (Except Halt)) α) (calls : List (TrackerCall α)) (start : σ)
    {t : Tracker α} {log : List (TouchEvent α)} {state : σ}
    (hrun : (((empty settings).run listener.logged calls).run []).run start =
      .ok ((t, log), state)) :
    ∃ chapters : List (List (Telling α)),
      log = chapters.flatten.map Telling.event ∧
      List.Forall₂ TrackerCall.Accounts calls chapters ∧
      (∀ before after, chapters.flatten = before ++ after →
        ∃ live, Replays before live ∧ ∀ f ∈ live, ∀ id ∈ f.touches, Ready before id) ∧
      ∀ n u log' state', (((empty settings).run listener.logged (calls.take n)).run []).run start =
          .ok ((u, log'), state') →
        log' = (chapters.take n).flatten.map Telling.event ∧
          Replays (chapters.take n).flatten ↑u.forms := by
  have hempty : (empty settings : Tracker α).Orderly := orderly_empty settings
  have hexec : ∀ calls u log' state', (((empty settings).run listener.logged calls).run []).run
      start = .ok ((u, log'), state') →
      exec ((empty settings).run listener.logged calls) ([], start) =
        .ok (u, (log', state')) := by
    intro calls u log' state' h
    exact congrArg (Except.map (fun p => (p.1.1, (p.1.2, p.2)))) h
  obtain ⟨chapters, hlog, h, hprefix⟩ :=
    exists_recounts listener.hears_logged hempty calls (hexec calls t log state hrun)
  refine ⟨chapters, hlog, h.accounts, fun before after heq => ?_, fun n u log' state' hn => ?_⟩
  · exact (h.stage hempty (stage_empty settings)).consistent.exists_replays heq
  · obtain ⟨hlog', hu⟩ := hprefix n u (log', state') (hexec _ _ _ _ hn)
    exact ⟨hlog', (hu.stage hempty (stage_empty settings)).consistent.replays⟩

/-- When one of two touches lifts, the constraint for two touches has been removed, and the
one for one touch is live. -/
theorem pinch_is_replaced_by_pull :
    ∃ (t : Tracker Rat) (log : List (TouchEvent Rat)) (chapters : List (List (Telling Rat))),
      (((empty .standard).run
        (.logged (.ofValues (fun _ => 3) : Listener (StateT Unit (Except Halt)) Rat))
        [.register [⟨"pull", ⟨[.symbolic ⟨.proxy 0, .positionX⟩ 1,
            .sampled ⟨.entity ⟨0⟩, .width⟩ 2], 0⟩, .equalTo, .strong⟩,
          ⟨"pinch", ⟨[.symbolic ⟨.proxy 1, .positionX⟩ 1,
            .symbolic ⟨.proxy 0, .positionX⟩ (-1)], 0⟩, .greaterOrEqual, .weak⟩],
          .beginTouches [⟨⟨7⟩, 1, 2⟩, ⟨⟨9⟩, 3, 4⟩], .endTouches [⟨7⟩]]).run []).run () =
        .ok ((t, log), ()) ∧
      log.length = 14 ∧ log = chapters.flatten.map Telling.event ∧
      t.forms.length = 1 ∧ Replays chapters.flatten ↑t.forms := by
  have hsome : ((((empty .standard).run
      (.logged (.ofValues (fun _ => 3) : Listener (StateT Unit (Except Halt)) Rat))
      [.register [⟨"pull", ⟨[.symbolic ⟨.proxy 0, .positionX⟩ 1,
          .sampled ⟨.entity ⟨0⟩, .width⟩ 2], 0⟩, .equalTo, .strong⟩,
        ⟨"pinch", ⟨[.symbolic ⟨.proxy 1, .positionX⟩ 1,
          .symbolic ⟨.proxy 0, .positionX⟩ (-1)], 0⟩, .greaterOrEqual, .weak⟩],
        .beginTouches [⟨⟨7⟩, 1, 2⟩, ⟨⟨9⟩, 3, 4⟩], .endTouches [⟨7⟩]]).run []).run
          ()).toOption.any (fun p => p.1.2.length == 14 && p.1.1.forms.length == 1) = true := by
    decide +kernel
  obtain ⟨⟨⟨t, log⟩, state⟩, hrun, hlengths⟩ := exists_ok_of_any hsome
  obtain ⟨hlog, hforms⟩ := Bool.and_eq_true_iff.mp hlengths
  obtain ⟨chapters, -, -, -, hprefix⟩ :=
    forms_are_told_consistently .standard (.ofValues (fun _ => 3)) _ () hrun
  obtain ⟨hevents, hlive⟩ := hprefix 3 t log () hrun
  exact ⟨t, log, _, hrun, beq_iff_eq.mp hlog, hevents, beq_iff_eq.mp hforms, hlive⟩

end Results

end Tracker

end Tether
