import Tether.Proofs.Solver.Holding
import Tether.Proofs.Touch.Listing

/-!
# Constraints that the caller passes on

A constraint without proxies goes straight to the solver.  Once the solver has accepted it,
no touch that moves and no edit variable that ends can take it out: what it shares with an
edit constraint is never held by one.  It goes when something of the same content is
removed by name, and there are two such things: a constraint that the caller unregisters,
and a concrete form that the tracker retracts.

The solver tells constraints apart by content and not by who added them, and the tracker
never learns that a form was called a duplicate.  So the second of these does happen.
-/

namespace Tether

open Simplex Stateful

variable {α : Type}

section Told

variable [Scalar α] {c : Constraint α} {call : SolverCall α}

/-- What is told takes a constraint out by name only if it mentions one of that content. -/
theorem Telling.exists_of_takesOut {tellings : List (Telling α)}
    (hcall : call ∈ Telling.calls tellings) (h : call.TakesOut c) :
    ∃ mentions, .removed mentions ∈ tellings ∧ ∃ m ∈ mentions, (m.constraint == c) = true := by
  obtain ⟨event, hevent, hcall⟩ := List.mem_flatMap.mp hcall
  obtain ⟨telling, htelling, rfl⟩ := List.mem_map.mp hevent
  cases telling with
  | added mentions =>
      obtain ⟨d, -, rfl⟩ := List.mem_map.mp hcall
      exact h.elim
  | removed mentions =>
      obtain ⟨d, hd, rfl⟩ := List.mem_map.mp hcall
      obtain ⟨m, hm, rfl⟩ := List.mem_map.mp hd
      exact ⟨mentions, htelling, m, hm, h⟩
  | edited v change =>
      cases change <;> · rw [List.mem_singleton.mp hcall] at h; exact h.elim
  | sampled v x => cases hcall

end Told

namespace Tracker

variable [Scalar α] {t u : Tracker α} {tellings : List (Telling α)} {call : TrackerCall α}
  {calls first rest : List (TrackerCall α)} {chapters : List (List (Telling α))}

section Removing

/-- A form that is applied is one of a proxy constraint, under the active touches. -/
theorem Orderly.form (ht : t.Orderly) {f : Form α} (hf : f ∈ t.forms) :
    f.source.hasProxies = true ∧ f.source.FormOf f.touches f.concrete := by
  obtain ⟨e, he, rfl⟩ := List.mem_map.mp hf
  have hkey : e.1 ∈ t.registered.filter t.fits := ht.applied ▸ OrderedMap.mem_keys_of_mem he
  exact ⟨ht.proxied _ (List.mem_of_mem_filter hkey), ht.forms e he⟩

/-- What applying tells removes nothing. -/
theorem Applies.not_removed (h : t.Applies tellings u) (mentions : List (Mention α)) :
    .removed mentions ∉ tellings := by
  obtain ⟨-, -⟩ := h
  intro hmem
  rcases List.mem_append.mp hmem with hread | hadded
  · obtain ⟨r, -, hr⟩ := List.mem_map.mp hread
    cases hr
  · cases Telling.eq_of_mem_adding hadded

/-- What is withdrawn was passed on by the caller, or is a form that was applied. -/
theorem Withdraws.provenance {cs : List (Constraint α)} {mentions : List (Mention α)}
    (h : t.Withdraws cs mentions u) :
    (∀ f ∈ u.forms, f ∈ t.forms) ∧
      ∀ m ∈ mentions, (∃ d ∈ cs, m = .passed d) ∨ ∃ f ∈ t.forms, m = .formed f := by
  induction h with
  | nothing => exact ⟨fun f hf => hf, by simp⟩
  | @passed cs mentions u c h hc ih =>
      refine ⟨ih.1, fun m hm => ?_⟩
      rcases List.mem_append.mp hm with hm | hm
      · exact (ih.2 m hm).imp_left (fun ⟨d, hd, he⟩ => ⟨d, List.mem_append_left _ hd, he⟩)
      · rw [List.mem_singleton.mp hm]
        exact .inl ⟨c, by simp, rfl⟩
  | @released cs mentions u c h hc hr ih =>
      have hsub : (u.applied.erase c).entries.Sublist u.applied.entries := List.eraseP_sublist
      refine ⟨fun f hf => ih.1 f ((hsub.map _).subset hf), fun m hm => ?_⟩
      rcases List.mem_append.mp hm with hm | hm
      · exact (ih.2 m hm).imp_left (fun ⟨d, hd, he⟩ => ⟨d, List.mem_append_left _ hd, he⟩)
      · obtain ⟨f, hf, rfl⟩ := List.mem_map.mp hm
        obtain ⟨e, he, rfl⟩ := Option.map_eq_some_iff.mp (Option.mem_toList.mp hf)
        refine .inr ⟨_, ih.1 _ (List.mem_map_of_mem (OrderedMap.mem_of_find? he).1), rfl⟩

/-- What a call removes was passed on by it, or is a form of a proxy constraint. -/
theorem Tells.provenance (h : t.Tells call tellings u) {mentions : List (Mention α)}
    (hremoved : .removed mentions ∈ tellings) :
    ∀ m ∈ mentions, (∃ ds, call = .unregister ds ∧ ∃ d ∈ ds, m = .passed d) ∨
      ∃ f ∈ t.forms, m = .formed f := by
  have hretraction : .removed mentions ∈ t.retraction →
      ∀ m ∈ mentions, ∃ f ∈ t.forms, m = .formed f := by
    intro hmem m hm
    cases Telling.eq_of_mem_removing hmem
    obtain ⟨f, hf, rfl⟩ := List.mem_map.mp hm
    exact ⟨f, hf, rfl⟩
  cases h with
  | register distinct h =>
      rcases List.mem_append.mp hremoved with hadded | happlied
      · cases Telling.eq_of_mem_adding hadded
      · exact absurd happlied (h.not_removed mentions)
  | @unregister cs _ _ h =>
      cases Telling.eq_of_mem_removing hremoved
      exact fun m hm => (h.provenance.2 m hm).imp_left (fun hd => ⟨cs, rfl, hd⟩)
  | beginNone => cases hremoved
  | begin some distinct h =>
      rcases List.mem_append.mp hremoved with hmem | happlied
      · rcases List.mem_append.mp hmem with hretracted | harrived
        · exact fun m hm => .inr (hretraction hretracted m hm)
        · simp [Telling.arrival, TouchPoint.coordinates] at harrived
      · exact absurd happlied (h.not_removed mentions)
  | move => simp [Telling.suggestion, TouchPoint.coordinates] at hremoved
  | endNone hcall none => cases hremoved
  | ended hcall some h =>
      rcases List.mem_append.mp hremoved with hmem | happlied
      · rcases List.mem_append.mp hmem with hretracted | hleft
        · exact fun m hm => .inr (hretraction hretracted m hm)
        · simp [Telling.departure] at hleft
      · exact absurd happlied (h.not_removed mentions)

/-- What a run removes was passed on by one of its calls, or is a form of a proxy
constraint. -/
theorem Recounts.provenance (h : t.Recounts calls chapters u) (ht : t.Orderly)
    {mentions : List (Mention α)} (hremoved : .removed mentions ∈ chapters.flatten) :
    ∀ m ∈ mentions, (∃ ds, .unregister ds ∈ calls ∧ ∃ d ∈ ds, m = .passed d) ∨
      ∃ f, m = .formed f ∧ f.source.hasProxies = true ∧
        f.source.FormOf f.touches f.concrete := by
  induction h with
  | nothing => cases hremoved
  | @call calls chapters u call tellings v h hcall ih =>
      intro m hm
      rw [List.flatten_append, List.flatten_singleton] at hremoved
      rcases List.mem_append.mp hremoved with hearlier | hlast
      · refine (ih hearlier m hm).imp_left (fun ⟨ds, hds, hd⟩ => ?_)
        exact ⟨ds, List.mem_append_left _ hds, hd⟩
      · rcases hcall.provenance hlast m hm with ⟨ds, rfl, hd⟩ | ⟨f, hf, rfl⟩
        · exact .inl ⟨ds, by simp, hd⟩
        · exact .inr ⟨f, rfl, (h.orderly ht).form hf⟩

end Removing

section Registering

/-- Registering passes on the constraints without proxies first, and then applies. -/
theorem Tells.of_register {cs : List (Constraint α)} (h : t.Tells (.register cs) tellings u) :
    ∃ applied, tellings =
        Telling.adding ((cs.filter (fun c => !c.hasProxies)).map .passed) ++ applied ∧
      (t.enrolled (cs.filter (·.hasProxies))).Applies applied u := by
  cases h with
  | register distinct h => exact ⟨_, rfl, h⟩
  | endNone hcall none => rcases hcall with hcall | hcall <;> cases hcall
  | ended hcall some h => rcases hcall with hcall | hcall <;> cases hcall

end Registering

section Keeping

/-- What becomes of a constraint that a call of a run passes on and the solver accepts. -/
theorem Recounts.stays_or_removed {cs before after : List (Constraint α)} {c : Constraint α}
    {s s' : Solver α} {limit : Nat} {answers : List (SolverAnswer α)}
    (h : t.Recounts (first ++ .register cs :: rest) chapters u) (ht : t.Orderly)
    (hs : s.Ledger) (hsolver : s.run limit (Telling.calls chapters.flatten) = .ok (s', answers))
    (hcs : cs.filter (fun c => !c.hasProxies) = before ++ c :: after)
    (hdone : answers[(Telling.calls (chapters.take first.length).flatten).length +
      before.length]? = some .done) :
    s'.hasConstraint c = true ∨
      (∃ ds, .unregister ds ∈ rest ∧ ∃ d ∈ ds, (d == c) = true) ∨
      ∃ mentions f, .removed mentions ∈ (chapters.drop (first.length + 1)).flatten ∧
        .formed f ∈ mentions ∧ f.source.hasProxies = true ∧
        f.source.FormOf f.touches f.concrete ∧ (f.concrete == c) = true := by
  obtain ⟨v, w, earlier, tellings, later, rfl, hfirst, htells, hrest⟩ := h.exists_tells
  have hw : w.Orderly := htells.orderly (hfirst.orderly ht)
  obtain ⟨applied, rfl, happlies⟩ := htells.of_register
  have hlength : earlier.length = first.length := hfirst.length_eq
  have hlater : (earlier ++ (Telling.adding
      ((cs.filter (fun c => !c.hasProxies)).map .passed) ++ applied) :: later).drop
        (first.length + 1) = later := by
    rw [← hlength, ← List.drop_drop, List.drop_left, List.drop_one, List.tail_cons]
  have hcalls : Telling.calls (earlier ++ (Telling.adding
      ((cs.filter (fun c => !c.hasProxies)).map .passed) ++ applied) :: later).flatten =
      (Telling.calls earlier.flatten ++ before.map .add) ++
        .add c :: (after.map .add ++ Telling.calls (applied ++ later.flatten)) := by
    rw [hcs]
    simp [Telling.calls_append, Telling.calls_adding, Mention.constraint, Function.comp_def]
  rw [hlater]
  rw [hcalls] at hsolver
  rw [List.take_left' hlength, ← List.length_map (f := SolverCall.add), ← List.length_append]
    at hdone
  rcases hs.accepted_or_taken_out hsolver hdone with hinstalled | ⟨call, hcall, htaken⟩
  · exact .inl hinstalled
  · rcases List.mem_append.mp hcall with hadded | hcall
    · obtain ⟨d, -, rfl⟩ := List.mem_map.mp hadded
      exact htaken.elim
    · obtain ⟨mentions, hmem, m, hm, hmc⟩ := Telling.exists_of_takesOut hcall htaken
      have hremoved : .removed mentions ∈ later.flatten :=
        (List.mem_append.mp hmem).resolve_left (happlies.not_removed mentions)
      rcases hrest.provenance hw hremoved m hm with ⟨ds, hds, d, hd, rfl⟩ | ⟨f, rfl, hf, hform⟩
      · exact .inr (.inl ⟨ds, hds, d, hd, hmc⟩)
      · exact .inr (.inr ⟨mentions, f, hremoved, hm, hf, hform, hmc⟩)

end Keeping

section Results

/-- A constraint without proxies that the solver accepted when it was registered is in the
solver after every run, unless since then a constraint of the same content was unregistered
or a concrete form of the same content was retracted.  Nothing else takes it out: no touch
that begins, moves or ends, no failed call, and no edit variable that is removed. -/
theorem accepted_constraints_stay_until_removed_by_content (settings settings' : Settings α)
    (limit : Nat) {listener : Listener (RelayM α) α} (hrelays : listener.Relays limit)
    (calls : List (TrackerCall α)) {t : Tracker α} {r : Relay α}
    (hrun : ((empty settings).run listener calls).run (Relay.ofSolver (Solver.empty settings')) =
      .ok (t, r)) :
    ∃ chapters answers, (empty settings).Recounts calls chapters t ∧
      (Solver.empty settings').run limit (Telling.calls chapters.flatten) =
        .ok (r.solver, answers) ∧
      r.failures = answers.filterMap (·.failure?) ∧
      ∀ first cs rest, calls = first ++ .register cs :: rest →
      ∀ before c after, cs.filter (fun c => !c.hasProxies) = before ++ c :: after →
        answers[(Telling.calls (chapters.take first.length).flatten).length + before.length]? =
          some .done →
        r.solver.hasConstraint c = true ∨
          (∃ ds, .unregister ds ∈ rest ∧ ∃ d ∈ ds, (d == c) = true) ∨
          ∃ mentions f, .removed mentions ∈ (chapters.drop (first.length + 1)).flatten ∧
            .formed f ∈ mentions ∧ f.source.hasProxies = true ∧
            f.source.FormOf f.touches f.concrete ∧ (f.concrete == c) = true := by
  have hempty : (empty settings : Tracker α).Orderly := orderly_empty settings
  obtain ⟨chapters, ⟨answers, hsolver, hfailures⟩, h, -⟩ :=
    exists_recounts hrelays.runs hempty calls hrun
  refine ⟨chapters, answers, h, hsolver, hfailures, ?_⟩
  rintro first cs rest rfl before c after hcs hdone
  exact h.stays_or_removed hempty (Solver.ledger_empty settings') hsolver hcs hdone

/-- A pull of the same content as a pin is called a duplicate; when its touch lifts, it is
retracted all the same, and that is what became of the pin. -/
theorem retracted_pull_took_out_pin :
    ∃ (t : Tracker Rat) (r : Relay Rat) (pin pull : Constraint Rat)
      (chapters : List (List (Telling Rat))),
      pin = ⟨"pin", ⟨[.symbolic (.ofTouch ⟨7⟩ .positionX) 1], -3⟩, .equalTo, .strong⟩ ∧
      pull = ⟨"pull", ⟨[.symbolic ⟨.proxy 0, .positionX⟩ 1], -3⟩, .equalTo, .strong⟩ ∧
      ((empty .standard).run (Relay.listener 9 (fun _ => 0))
        [.register [pin, pull], .beginTouches [⟨⟨7⟩, 3, 4⟩], .endTouches [⟨7⟩]]).run
          (Relay.ofSolver (Solver.empty .standard)) = .ok (t, r) ∧
      (empty .standard).Recounts
        [.register [pin, pull], .beginTouches [⟨⟨7⟩, 3, 4⟩], .endTouches [⟨7⟩]] chapters t ∧
      ∃ mentions f, .removed mentions ∈ (chapters.drop 1).flatten ∧ .formed f ∈ mentions ∧
        (f.concrete == pin) = true := by
  have hsome : (((empty .standard : Tracker Rat).run (Relay.listener 9 (fun _ => 0))
      [.register [⟨"pin", ⟨[.symbolic (.ofTouch ⟨7⟩ .positionX) 1], -3⟩, .equalTo, .strong⟩,
          ⟨"pull", ⟨[.symbolic ⟨.proxy 0, .positionX⟩ 1], -3⟩, .equalTo, .strong⟩],
        .beginTouches [⟨⟨7⟩, 3, 4⟩], .endTouches [⟨7⟩]]).run
          (Relay.ofSolver (Solver.empty .standard))).toOption.any (fun p =>
            !p.2.solver.hasConstraint
              ⟨"pin", ⟨[.symbolic (.ofTouch ⟨7⟩ .positionX) 1], -3⟩, .equalTo, .strong⟩) = true := by
    decide +kernel
  have hfirst : ((Solver.empty .standard : Solver Rat).perform 9
      (.add ⟨"pin", ⟨[.symbolic (.ofTouch ⟨7⟩ .positionX) 1], -3⟩, .equalTo, .strong⟩)).toOption.any
        (fun p => p.2.failure?.isNone) = true := by
    decide +kernel
  obtain ⟨⟨t, r⟩, hrun, hmissing⟩ := exists_ok_of_any hsome
  have hmissing := (Bool.not_eq_true' _).mp hmissing
  obtain ⟨chapters, answers, h, hsolver, -, hkept⟩ :=
    accepted_constraints_stay_until_removed_by_content .standard .standard 9
      (Relay.relays_listener 9 (fun _ => 0)) _ hrun
  refine ⟨t, r, _, _, chapters, rfl, rfl, hrun, h, ?_⟩
  have hdone : answers[0]? = some .done := by
    have hcut : (empty .standard).Recounts ([] ++ .register [_, _] :: _) chapters t := h
    obtain ⟨v, w, earlier, tellings, later, rfl, hnone, htells, -⟩ := hcut.exists_tells
    obtain ⟨applied, rfl, -⟩ := htells.of_register
    obtain rfl := List.eq_nil_of_length_eq_zero hnone.length_eq
    rw [List.nil_append, List.flatten_cons, List.append_assoc, Telling.calls_append,
      Telling.calls_adding] at hsolver
    obtain ⟨_, _, _, hadd, -, rfl⟩ := Solver.exists_perform_of_cons hsolver
    obtain ⟨result, hresult, rfl⟩ := Solver.exists_of_answer hadd
    obtain ⟨p, hp, hfine⟩ := exists_ok_of_any hfirst
    obtain rfl := Except.ok.inj (hadd.symm.trans hp)
    cases result with
    | ok _ => rfl
    | error why => cases hfine
  rcases hkept [] _ _ rfl [] _ [] rfl hdone with hinstalled | ⟨ds, hds, -⟩ | hretracted
  · rw [hmissing] at hinstalled
    cases hinstalled
  · simp at hds
  · obtain ⟨mentions, f, hremoved, hf, -, -, hfc⟩ := hretracted
    exact ⟨mentions, f, hremoved, hf, hfc⟩

/-- The constraints of a caller may go without being unregistered: a pin that was accepted,
and that nothing but a touch came and went for, is no longer in the solver. -/
theorem accepted_pin_goes_with_touch :
    ∃ (t₀ t : Tracker Rat) (r₀ r : Relay Rat) (pin pull : Constraint Rat),
      pin = ⟨"pin", ⟨[.symbolic (.ofTouch ⟨7⟩ .positionX) 1], -3⟩, .equalTo, .strong⟩ ∧
      pull = ⟨"pull", ⟨[.symbolic ⟨.proxy 0, .positionX⟩ 1], -3⟩, .equalTo, .strong⟩ ∧
      pin.hasProxies = false ∧
      ((empty .standard).run (Relay.listener 9 (fun _ => 0)) [.register [pin, pull]]).run
        (Relay.ofSolver (Solver.empty .standard)) = .ok (t₀, r₀) ∧
      r₀.failures = [] ∧ r₀.solver.hasConstraint pin = true ∧
      ((empty .standard).run (Relay.listener 9 (fun _ => 0))
        [.register [pin, pull], .beginTouches [⟨⟨7⟩, 3, 4⟩], .endTouches [⟨7⟩]]).run
          (Relay.ofSolver (Solver.empty .standard)) = .ok (t, r) ∧
      r.solver.hasConstraint pin = false := by
  have hbefore : (((empty .standard : Tracker Rat).run (Relay.listener 9 (fun _ => 0))
      [.register [⟨"pin", ⟨[.symbolic (.ofTouch ⟨7⟩ .positionX) 1], -3⟩, .equalTo, .strong⟩,
          ⟨"pull", ⟨[.symbolic ⟨.proxy 0, .positionX⟩ 1], -3⟩, .equalTo, .strong⟩]]).run
          (Relay.ofSolver (Solver.empty .standard))).toOption.any (fun p =>
            decide (p.2.failures = []) && p.2.solver.hasConstraint
              ⟨"pin", ⟨[.symbolic (.ofTouch ⟨7⟩ .positionX) 1], -3⟩, .equalTo, .strong⟩) = true := by
    decide +kernel
  have hafter : (((empty .standard : Tracker Rat).run (Relay.listener 9 (fun _ => 0))
      [.register [⟨"pin", ⟨[.symbolic (.ofTouch ⟨7⟩ .positionX) 1], -3⟩, .equalTo, .strong⟩,
          ⟨"pull", ⟨[.symbolic ⟨.proxy 0, .positionX⟩ 1], -3⟩, .equalTo, .strong⟩],
        .beginTouches [⟨⟨7⟩, 3, 4⟩], .endTouches [⟨7⟩]]).run
          (Relay.ofSolver (Solver.empty .standard))).toOption.any (fun p =>
            !p.2.solver.hasConstraint
              ⟨"pin", ⟨[.symbolic (.ofTouch ⟨7⟩ .positionX) 1], -3⟩, .equalTo, .strong⟩) = true := by
    decide +kernel
  obtain ⟨⟨t₀, r₀⟩, hrun₀, hrest⟩ := exists_ok_of_any hbefore
  obtain ⟨⟨t, r⟩, hrun, hmissing⟩ := exists_ok_of_any hafter
  obtain ⟨hfailures, hinstalled⟩ := Bool.and_eq_true_iff.mp hrest
  exact ⟨t₀, t, r₀, r, _, _, rfl, rfl, rfl, hrun₀, of_decide_eq_true hfailures, hinstalled, hrun,
    (Bool.not_eq_true' _).mp hmissing⟩

end Results

end Tracker

end Tether
