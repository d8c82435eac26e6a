import Tether.Proofs.Solver.Presence
import Tether.Proofs.Touch.Relaying

/-!
# What a tracker lists and what a solver has

A tracker lists the concrete forms of what is applied, and never learns what became of
them.  A solver may refuse a form, and it has one constraint only where several of the
same content were added, so that taking out one of them takes out all.

What the list is good for is therefore a matter of history.  Since a listed form was added,
no form of its constraint was taken out and no edit variable ended.  So it is installed,
unless its addition was refused, or the caller unregistered something of the same content:
a constraint without proxies, or a proxy constraint with the same form.
-/

namespace Tether

open Simplex Stateful

variable {α : Type}

section Relaying

variable [Scalar α] {limit : Nat} {listener : Listener (RelayM α) α}

namespace Relay

/-- The solver of a relay has carried out calls, and their failures are on record. -/
def Runs (limit : Nat) (r : Relay α) (calls : List (SolverCall α)) (r' : Relay α) : Prop :=
  ∃ answers, r.solver.run limit calls = .ok (r'.solver, answers) ∧
    r'.failures = r.failures ++ answers.filterMap (·.failure?)

variable {r r' r'' : Relay α} {calls calls' : List (SolverCall α)}

theorem Runs.append (h : r.Runs limit calls r') (h' : r'.Runs limit calls' r'') :
    r.Runs limit (calls ++ calls') r'' := by
  obtain ⟨answers, hrun, hfailures⟩ := h
  obtain ⟨answers', hrun', hfailures'⟩ := h'
  refine ⟨answers ++ answers', ?_, ?_⟩
  · rw [Solver.run_append, hrun]
    show (r'.solver.run limit calls').map _ = _
    rw [hrun']
    rfl
  · rw [hfailures', hfailures, List.filterMap_append, List.append_assoc]

theorem meets_runs {ε : Type} {wrap : ε → SolverError} {f : Solver α → Outcome (Solver α) ε}
    (call : SolverCall α) (hcall : ∀ s : Solver α, s.perform limit call = Solver.answer wrap (f s))
    (r : Relay α) :
    Meets (exec (Relay.call wrap f) r) (fun _ => True) (fun p => r.Runs limit [call] p.2) := by
  refine Meets.map (Listener.meets_of_forall (fun _ _ => trivial) ?_)
  rintro ⟨s, answer⟩ hf
  have hperform : r.solver.perform limit call = .ok (s, .ofExcept wrap answer) := by
    rw [hcall, Solver.answer, hf]
    rfl
  have hrun : r.solver.run limit [call] = .ok (s, [.ofExcept wrap answer]) := by
    rw [Solver.run, hperform]
    rfl
  cases answer with
  | error e => exact ⟨_, hrun, rfl⟩
  | ok _ => exact ⟨_, hrun, (List.append_nil _).symm⟩

end Relay

/-- A relaying listener makes the solver carry out what it is told. -/
theorem Listener.Relays.runs (h : listener.Relays limit) :
    listener.Hears (fun r es r' => r.Runs limit (es.flatMap TouchEvent.calls) r')
      (fun _ => True) := by
  refine h.hears_of (R := fun r calls r' => r.Runs limit calls r') Relay.Runs.append
    (fun call hcall => Relay.meets_runs call hcall) (fun r r' hsolver hfailures => ?_)
  refine ⟨[], ?_, hfailures.trans (List.append_nil _).symm⟩
  rw [hsolver]
  rfl

end Relaying

section Told

/-- The calls that adding a form amounts to, among those for everything told. -/
theorem Telling.calls_added (earlier later : List (Telling α)) (before after : List (Mention α))
    (f : Form α) : Telling.calls (earlier ++ .added (before ++ .formed f :: after) :: later) =
      (Telling.calls earlier ++ before.map (fun m => .add m.constraint)) ++
        .add f.concrete :: (after.map (fun m => .add m.constraint) ++ Telling.calls later) := by
  simp [Telling.calls, Telling.event, TouchEvent.calls, Mention.constraint, Function.comp_def]

end Told

section Sparing

variable [Scalar α]

/-- Whether a mention is of something else than the form of a constraint. -/
def Mention.Spares (source : Constraint α) : Mention α → Prop
  | .passed _ => True
  | .formed f => (f.source == source) = false

/-- Whether something told leaves the form of a constraint: nothing but constraints that
the caller passed on and forms of other constraints are taken out, and no edit variable
ends. -/
def Telling.Spares (source : Constraint α) : Telling α → Prop
  | .removed mentions => ∀ m ∈ mentions, m.Spares source
  | .edited _ .removed => False
  | _ => True

/-- A form was added, and nothing that was told since took it out for its own sake. -/
def Listed (told : List (Telling α)) (f : Form α) : Prop :=
  ∃ earlier before after later,
    told = earlier ++ .added (before ++ .formed f :: after) :: later ∧
      ∀ telling ∈ later, telling.Spares f.source

variable {told more : List (Telling α)} {f : Form α} {source : Constraint α}

theorem Listed.append (h : Listed told f) (hmore : ∀ telling ∈ more, telling.Spares f.source) :
    Listed (told ++ more) f := by
  obtain ⟨earlier, before, after, later, rfl, hlater⟩ := h
  refine ⟨earlier, before, after, later ++ more, by simp, fun telling htelling => ?_⟩
  rcases List.mem_append.mp htelling with h | h
  · exact hlater telling h
  · exact hmore telling h

theorem spares_adding (mentions : List (Mention α)) :
    ∀ telling ∈ Telling.adding mentions, telling.Spares source := by
  intro telling htelling
  rw [Telling.eq_of_mem_adding htelling]
  trivial

theorem spares_removing {mentions : List (Mention α)} (h : ∀ m ∈ mentions, m.Spares source) :
    ∀ telling ∈ Telling.removing mentions, telling.Spares source := by
  intro telling htelling
  rw [Telling.eq_of_mem_removing htelling]
  exact h

theorem spares_reading (values : List (Variable × α)) :
    ∀ telling ∈ Telling.reading values, telling.Spares source := by
  intro telling htelling
  obtain ⟨r, -, rfl⟩ := List.mem_map.mp htelling
  trivial

theorem spares_suggestions (points : List (TouchPoint α)) :
    ∀ telling ∈ points.flatMap Telling.suggestion, telling.Spares source := by
  intro telling htelling
  obtain ⟨p, -, hp⟩ := List.mem_flatMap.mp htelling
  obtain ⟨c, -, rfl⟩ := List.mem_map.mp hp
  trivial

/-- What is told takes out no constraint unless it mentions one of the same content. -/
theorem Telling.Spares.calls {telling : Telling α} (h : telling.Spares source)
    {c : Constraint α} {call : SolverCall α} (hcall : call ∈ telling.event.calls)
    (htaken : ¬ call.Spares c) :
    ∃ mentions, telling = .removed mentions ∧ ∃ m ∈ mentions, (m.constraint == c) = true := by
  cases telling with
  | added mentions =>
      obtain ⟨d, -, rfl⟩ := List.mem_map.mp hcall
      exact absurd trivial htaken
  | removed mentions =>
      obtain ⟨d, hd, rfl⟩ := List.mem_map.mp hcall
      obtain ⟨m, hm, rfl⟩ := List.mem_map.mp hd
      exact ⟨mentions, rfl, m, hm, by simpa [SolverCall.Spares] using htaken⟩
  | edited v change =>
      cases change with
      | removed => exact h.elim
      | added strength =>
          rw [List.mem_singleton.mp hcall] at htaken
          exact absurd trivial htaken
      | suggested x =>
          rw [List.mem_singleton.mp hcall] at htaken
          exact absurd trivial htaken
  | sampled v x => cases hcall

end Sparing

namespace Tracker

section Forms

theorem forms_joined (t : Tracker α) (points : List (TouchPoint α)) :
    (t.joined points).forms = [] :=
  rfl

theorem forms_left (t : Tracker α) (ids : List TouchId) : (t.left ids).forms = [] :=
  rfl

theorem forms_moved (t : Tracker α) (points : List (TouchPoint α)) :
    (t.moved points).forms = t.forms := by
  simp only [forms, keys_moved]
  rfl

end Forms

section Listing

variable [Scalar α] {t u : Tracker α} {told tellings : List (Telling α)} {call : TrackerCall α}

/-- What is applied is listed, if what was applied before is. -/
theorem Applies.listed (h : t.Applies tellings u) (ht : ∀ f ∈ t.forms, Listed told f) :
    ∀ f ∈ u.forms, Listed (told ++ tellings) f := by
  obtain ⟨hsource, hform⟩ := h
  rename_i values made
  intro f hf
  rw [forms, List.map_append] at hf
  rcases List.mem_append.mp hf with hold | hnew
  · refine (ht f hold).append (fun telling htelling => ?_)
    rcases List.mem_append.mp htelling with h | h
    · exact spares_reading values telling h
    · exact spares_adding _ telling h
  · have hmade : Mention.formed f ∈
        made.map (fun e => Mention.formed ⟨e.1, e.2, t.touches.keys⟩) := by
      obtain ⟨e, he, rfl⟩ := List.mem_map.mp hnew
      exact List.mem_map_of_mem he
    obtain ⟨before, after, hsplit⟩ := List.append_of_mem hmade
    refine ⟨told ++ Telling.reading values, before, after, [], ?_, by simp⟩
    rw [hsplit, Telling.adding, if_neg (by simp), List.append_assoc]

/-- What is withdrawn is something else than the forms that stay. -/
theorem Withdraws.spares {cs : List (Constraint α)} {mentions : List (Mention α)}
    (h : t.Withdraws cs mentions u) (ht : Constraint.Distinct t.applied.keys) :
    Constraint.Distinct u.applied.keys ∧
      ∀ f ∈ u.forms, f ∈ t.forms ∧ ∀ m ∈ mentions, m.Spares f.source := by
  induction h with
  | nothing => exact ⟨ht, fun f hf => ⟨hf, by simp⟩⟩
  | passed h hc ih =>
      refine ⟨ih.1, fun f hf => ⟨(ih.2 f hf).1, fun m hm => ?_⟩⟩
      rcases List.mem_append.mp hm with hm | hm
      · exact (ih.2 f hf).2 m hm
      · rw [List.mem_singleton.mp hm]
        trivial
  | @released cs mentions u c h hc hr ih =>
      have hsub : (u.applied.erase c).entries.Sublist u.applied.entries := List.eraseP_sublist
      refine ⟨ih.1.sublist (hsub.map _), fun f hf => ?_⟩
      have hold : f ∈ u.forms := (hsub.map _).subset hf
      refine ⟨(ih.2 f hold).1, fun m hm => ?_⟩
      rcases List.mem_append.mp hm with hm | hm
      · exact (ih.2 f hold).2 m hm
      · cases hfind : u.applied.find? c with
        | none => simp [form?, hfind] at hm
        | some e =>
            obtain ⟨before, after, hentries, herase⟩ := OrderedMap.exists_append_of_find? hfind
            rw [form?, hfind] at hm
            rw [List.mem_singleton.mp hm]
            obtain ⟨d, hd, rfl⟩ := List.mem_map.mp hf
            have hkeys := ih.1
            rw [OrderedMap.keys, hentries, List.map_append, List.map_cons] at hkeys
            refine hkeys.beq_eq_false ?_
            rw [← List.map_append, ← herase]
            exact List.mem_map_of_mem hd

theorem Orderly.distinct_applied (ht : t.Orderly) : Constraint.Distinct t.applied.keys :=
  ht.applied ▸ List.Pairwise.sublist List.filter_sublist ht.registered

/-- Whatever a call does, the forms of the tracker are listed after it if they were
before. -/
theorem Tells.listed (h : t.Tells call tellings u) (ht : t.Orderly)
    (hlisted : ∀ f ∈ t.forms, Listed told f) : ∀ f ∈ u.forms, Listed (told ++ tellings) f := by
  cases h with
  | @register cs _ _ distinct h =>
      rw [← List.append_assoc]
      refine h.listed (fun f hf => (hlisted f hf).append (spares_adding _))
  | unregister h =>
      intro f hf
      obtain ⟨hold, hspares⟩ := (h.spares ht.distinct_applied).2 f hf
      exact (hlisted f hold).append (spares_removing hspares)
  | beginNone => simpa using hlisted
  | begin some distinct h =>
      rw [← List.append_assoc]
      exact h.listed (by simp [forms_joined])
  | move =>
      intro f hf
      rw [forms_moved] at hf
      exact (hlisted f hf).append (spares_suggestions _)
  | endNone hcall none => simpa using hlisted
  | ended hcall some h =>
      rw [← List.append_assoc]
      exact h.listed (by simp [forms_left])

/-- After every run the forms of the tracker are listed. -/
theorem Recounts.listed {calls : List (TrackerCall α)} {chapters : List (List (Telling α))}
    (h : t.Recounts calls chapters u) (ht : t.Orderly) (hnone : t.forms = []) :
    ∀ f ∈ u.forms, Listed chapters.flatten f := by
  induction h with
  | nothing => simp [hnone]
  | @call calls chapters u call tellings v h hcall ih =>
      rw [List.flatten_append, List.flatten_cons, List.flatten_nil, List.append_nil]
      exact hcall.listed (h.orderly ht) ih

end Listing

section Results

variable [Scalar α]

/-- After every run the solver has carried out what the tracker told, and the failures on
record are its.  Of every form that the tracker lists it was told, and since then nothing
took that form out for its own sake.  So the form is installed, or its addition was refused,
which is on record, or since then something of the same content was taken out: a constraint
that the caller unregistered, or the form of another constraint. -/
theorem listed_forms_are_installed_refused_or_taken_out (settings settings' : Settings α)
    (limit : Nat) {listener : Listener (RelayM α) α} (hrelays : listener.Relays limit)
    (calls : List (TrackerCall α)) {t : Tracker α} {r : Relay α}
    (hrun : ((empty settings).run listener calls).run (Relay.ofSolver (Solver.empty settings')) =
      .ok (t, r)) :
    t.appliedConstraints = t.forms.map (·.concrete) ∧
    (∀ c, t.isApplied c = t.forms.any (fun f => f.source == c)) ∧
    ∃ chapters answers, (empty settings).Recounts calls chapters t ∧
      (Solver.empty settings').run limit (Telling.calls chapters.flatten) =
        .ok (r.solver, answers) ∧
      r.failures = answers.filterMap (·.failure?) ∧
      ∀ f ∈ t.forms, ∃ earlier before after later,
        chapters.flatten = earlier ++ .added (before ++ .formed f :: after) :: later ∧
        (∀ telling ∈ later, telling.Spares f.source) ∧
        (r.solver.hasConstraint f.concrete = true ∨
          (∃ why, why ≠ .duplicateConstraint ∧ .addConstraint why ∈ r.failures ∧
            answers[(Telling.calls earlier).length + before.length]? =
              some (.failed (.addConstraint why))) ∨
          ∃ mentions, .removed mentions ∈ later ∧
            ∃ m ∈ mentions, (m.constraint == f.concrete) = true) := by
  have hempty : (empty settings : Tracker α).Orderly := orderly_empty settings
  obtain ⟨chapters, ⟨answers, hsolver, hfailures⟩, h, -⟩ :=
    exists_recounts hrelays.runs hempty calls hrun
  have hsolver : (Solver.empty settings').run limit (Telling.calls chapters.flatten) =
    .ok (r.solver, answers) := hsolver
  have hfailures : r.failures = answers.filterMap (·.failure?) := hfailures
  refine ⟨?_, ?_, chapters, answers, h, hsolver, hfailures, fun f hf => ?_⟩
  · simp [appliedConstraints, forms, OrderedMap.values]
  · exact fun c => by simp [isApplied, forms, OrderedMap.contains, Function.comp_def]
  · obtain ⟨earlier, before, after, later, htold, hlater⟩ := h.listed hempty rfl f hf
    refine ⟨earlier, before, after, later, htold, hlater, ?_⟩
    rw [htold, Telling.calls_added] at hsolver
    rcases (Solver.ledger_empty settings').installed_or_refused hsolver with
      hinstalled | ⟨why, hwhy, hanswer⟩ | ⟨call, hcall, htaken⟩
    · exact .inl hinstalled
    · rw [List.length_append, List.length_map] at hanswer
      refine .inr (.inl ⟨why, hwhy, ?_, hanswer⟩)
      rw [hfailures]
      exact List.mem_filterMap.mpr ⟨_, List.mem_of_getElem? hanswer, rfl⟩
    · rcases List.mem_append.mp hcall with hadded | hlast
      · obtain ⟨m, -, rfl⟩ := List.mem_map.mp hadded
        exact absurd trivial htaken
      · obtain ⟨event, hevent, hcall⟩ := List.mem_flatMap.mp hlast
        obtain ⟨telling, htelling, rfl⟩ := List.mem_map.mp hevent
        obtain ⟨mentions, rfl, hm⟩ := (hlater telling htelling).calls hcall htaken
        exact .inr (.inr ⟨mentions, htelling, hm⟩)

/-- A proxy constraint gets the form of a constraint that the solver has already, so it
is listed though it is called a duplicate.  When the other one is unregistered, the form is
gone, and is listed still. -/
theorem missing_form_was_taken_out :
    ∃ (t : Tracker Rat) (r : Relay Rat),
      ((empty .standard).run (Relay.listener 9 (fun _ => 0))
        [.register [⟨"pin", ⟨[.symbolic (.ofTouch ⟨7⟩ .positionX) 1], -3⟩, .equalTo, .strong⟩,
            ⟨"pull", ⟨[.symbolic ⟨.proxy 0, .positionX⟩ 1], -3⟩, .equalTo, .strong⟩],
          .beginTouches [⟨⟨7⟩, 3, 4⟩],
          .unregister [⟨"pin", ⟨[.symbolic (.ofTouch ⟨7⟩ .positionX) 1], -3⟩, .equalTo,
            .strong⟩]]).run (Relay.ofSolver (Solver.empty .standard)) = .ok (t, r) ∧
      ∃ f ∈ t.forms, r.solver.hasConstraint f.concrete = false ∧
        ∃ (chapters : List (List (Telling Rat))) (earlier later : List (Telling Rat))
          (before after mentions : List (Mention Rat)),
          chapters.flatten = earlier ++ .added (before ++ .formed f :: after) :: later ∧
          .removed mentions ∈ later ∧ ∃ m ∈ mentions, (m.constraint == f.concrete) = true := by
  have hsome : (((empty .standard : Tracker Rat).run (Relay.listener 9 (fun _ => 0))
      [.register [⟨"pin", ⟨[.symbolic (.ofTouch ⟨7⟩ .positionX) 1], -3⟩, .equalTo, .strong⟩,
          ⟨"pull", ⟨[.symbolic ⟨.proxy 0, .positionX⟩ 1], -3⟩, .equalTo, .strong⟩],
        .beginTouches [⟨⟨7⟩, 3, 4⟩],
        .unregister [⟨"pin", ⟨[.symbolic (.ofTouch ⟨7⟩ .positionX) 1], -3⟩, .equalTo,
          .strong⟩]]).run (Relay.ofSolver (Solver.empty .standard))).toOption.any (fun p =>
            decide (p.2.failures = [.addConstraint .duplicateConstraint]) &&
            p.1.forms.any (fun f => !p.2.solver.hasConstraint f.concrete)) = true := by
    decide +kernel
  obtain ⟨⟨t, r⟩, hrun, hrest⟩ := exists_ok_of_any hsome
  obtain ⟨hfailures, hany⟩ := Bool.and_eq_true_iff.mp hrest
  obtain ⟨f, hf, hmissing⟩ := List.any_eq_true.mp hany
  have hfailures : r.failures = [.addConstraint .duplicateConstraint] :=
    of_decide_eq_true hfailures
  have hmissing : r.solver.hasConstraint f.concrete = false := (Bool.not_eq_true' _).mp hmissing
  obtain ⟨-, -, chapters, answers, -, -, -, hlisted⟩ :=
    listed_forms_are_installed_refused_or_taken_out .standard .standard 9
      (Relay.relays_listener 9 (fun _ => 0)) _ hrun
  obtain ⟨earlier, before, after, later, htold, -, hfate⟩ := hlisted f hf
  refine ⟨t, r, hrun, f, hf, hmissing, chapters, earlier, later, before, after, ?_⟩
  rcases hfate with hinstalled | ⟨why, hwhy, hrecorded, -⟩ | ⟨mentions, hremoved, hm⟩
  · rw [hmissing] at hinstalled
    cases hinstalled
  · rw [hfailures, List.mem_singleton] at hrecorded
    cases hrecorded
    exact absurd rfl hwhy
  · exact ⟨mentions, htold, hremoved, hm⟩

/-- A listed form may be missing from the solver, for either reason: two required proxy
constraints contradict each other, or what the solver had for a form was unregistered. -/
theorem listed_forms_may_be_missing :
    (∃ (t : Tracker Rat) (r : Relay Rat),
      ((empty .standard).run (Relay.listener 9 (fun _ => 0))
        [.register [⟨"left", ⟨[.symbolic ⟨.proxy 0, .positionX⟩ 1], 0⟩, .equalTo, .required⟩,
            ⟨"right", ⟨[.symbolic ⟨.proxy 0, .positionX⟩ 1], -1⟩, .equalTo, .required⟩],
          .beginTouches [⟨⟨7⟩, 0, 0⟩]]).run (Relay.ofSolver (Solver.empty .standard)) =
            .ok (t, r) ∧
      ∃ c ∈ t.appliedConstraints, r.solver.hasConstraint c = false) ∧
    ∃ (t : Tracker Rat) (r : Relay Rat),
      ((empty .standard).run (Relay.listener 9 (fun _ => 0))
        [.register [⟨"pin", ⟨[.symbolic (.ofTouch ⟨7⟩ .positionX) 1], -3⟩, .equalTo, .strong⟩,
            ⟨"pull", ⟨[.symbolic ⟨.proxy 0, .positionX⟩ 1], -3⟩, .equalTo, .strong⟩],
          .beginTouches [⟨⟨7⟩, 3, 4⟩],
          .unregister [⟨"pin", ⟨[.symbolic (.ofTouch ⟨7⟩ .positionX) 1], -3⟩, .equalTo,
            .strong⟩]]).run (Relay.ofSolver (Solver.empty .standard)) = .ok (t, r) ∧
      ∃ c ∈ t.appliedConstraints, r.solver.hasConstraint c = false := by
  have hmissing : ∀ calls : List (TrackerCall Rat),
      (((empty .standard).run (Relay.listener 9 (fun _ => 0)) calls).run
        (Relay.ofSolver (Solver.empty .standard))).toOption.any (fun p =>
          p.1.appliedConstraints.any (fun c => !p.2.solver.hasConstraint c)) = true →
      ∃ (t : Tracker Rat) (r : Relay Rat),
        ((empty .standard).run (Relay.listener 9 (fun _ => 0)) calls).run
          (Relay.ofSolver (Solver.empty .standard)) = .ok (t, r) ∧
        ∃ c ∈ t.appliedConstraints, r.solver.hasConstraint c = false := by
    intro calls hsome
    obtain ⟨⟨t, r⟩, hrun, hany⟩ := exists_ok_of_any hsome
    obtain ⟨c, hc, hnot⟩ := List.any_eq_true.mp hany
    exact ⟨t, r, hrun, c, hc, (Bool.not_eq_true' _).mp hnot⟩
  exact ⟨hmissing _ (by decide +kernel), hmissing _ (by decide +kernel)⟩

end Results

end Tracker

end Tether
