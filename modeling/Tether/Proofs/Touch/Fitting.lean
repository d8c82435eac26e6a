import Tether.Proofs.Touch.Telling
import Tether.Scalar.Rational

/-!
# Exactly what fits is applied

After every call, the applied constraints are the registered ones that fit, in the
order in which they were registered, each in the concrete form that it has under the
active touches.  Which constraints are registered and which touches are active follows
from the calls alone.
-/

namespace Tether

open Simplex Stateful

variable {α : Type} [Scalar α]

section Calls

/-- The registered constraints after a call, oldest first. -/
def TrackerCall.registers (registered : List (Constraint α)) :
    TrackerCall α → List (Constraint α)
  | .register cs => registered ++ cs.filter (·.hasProxies)
  | .unregister cs => registered.filter (fun r => !cs.any (· == r))
  | _ => registered

/-- The active touches after a call, oldest first. -/
def TrackerCall.activates {α : Type} (active : List TouchId) : TrackerCall α → List TouchId
  | .beginTouches points => active ++ points.map (·.id)
  | .endTouches ids => active.filter (fun id => !ids.contains id)
  | .cancelTouches ids => active.filter (fun id => !ids.contains id)
  | _ => active

end Calls

namespace Tracker

variable {t u : Tracker α} {tellings : List (Telling α)} {call : TrackerCall α}

section Applying

theorem Applies.keys (h : t.Applies tellings u) : u.applied.keys = t.applied.keys ++ t.waiting := by
  obtain ⟨hsource, -⟩ := h
  rw [← hsource]
  simp [OrderedMap.keys]

/-- Of the registered constraints those wait that came last, if those before are applied. -/
theorem waiting_eq {before after : List (Constraint α)} (ht : Constraint.Distinct t.registered)
    (hr : t.registered = before ++ after) (ha : t.applied.keys = before.filter t.fits) :
    t.waiting = after.filter t.fits := by
  have hold : before.filter (fun c => !t.isApplied c && t.fits c) = [] := by
    refine List.filter_eq_nil_iff.mpr (fun c hc hnew => ?_)
    simp only [Bool.and_eq_true, Bool.not_eq_true'] at hnew
    rw [isApplied, OrderedMap.contains_eq_any_keys, ha] at hnew
    have := List.any_eq_false.mp hnew.1 c (List.mem_filter.mpr ⟨hc, hnew.2⟩)
    exact this (Constraint.beq_refl c)
  unfold waiting
  rw [hr, List.filter_append, hold, List.nil_append]
  refine List.filter_congr (fun c hc => ?_)
  have hnew : t.isApplied c = false := by
    rw [isApplied, OrderedMap.contains_eq_any_keys, ha]
    refine List.any_eq_false.mpr (fun b hb => ?_)
    rw [hr] at ht
    have := (List.pairwise_append.mp ht).2.2 b (List.mem_of_mem_filter hb) c hc
    simpa using this
  simp [hnew]

/-- Applying makes a tracker orderly, if what was applied before is what fits of the
constraints that were registered first. -/
theorem Applies.orderly (h : t.Applies tellings u) {before after : List (Constraint α)}
    (htouches : t.touches.keys.Nodup) (hregistered : Constraint.Distinct t.registered)
    (hproxied : ∀ c ∈ t.registered, c.hasProxies = true)
    (hr : t.registered = before ++ after) (ha : t.applied.keys = before.filter t.fits)
    (hforms : ∀ e ∈ t.applied.entries, e.1.FormOf t.touches.keys e.2) : u.Orderly := by
  have hkeys : u.applied.keys = t.registered.filter t.fits := by
    rw [h.keys, waiting_eq hregistered hr ha, ha, hr, List.filter_append]
  obtain ⟨-, hform⟩ := h
  refine ⟨htouches, hregistered, hproxied, hkeys, fun e he => ?_⟩
  rcases List.mem_append.mp he with he | he
  · exact hforms e he
  · exact hform e he

end Applying

section Withdrawing

theorem Orderly.released (ht : t.Orderly) (c : Constraint α) : (t.released c).Orderly where
  touches := ht.touches
  registered := List.Pairwise.sublist List.eraseP_sublist ht.registered
  proxied := fun r hr => ht.proxied r (List.mem_of_mem_eraseP hr)
  applied := by
    have hdistinct : Constraint.Distinct t.applied.keys :=
      ht.applied ▸ List.Pairwise.sublist List.filter_sublist ht.registered
    show (t.applied.erase c).keys = (t.registered.eraseP (fun r => r == c)).filter t.fits
    rw [OrderedMap.keys_erase, hdistinct.eraseP_eq_filter, ht.registered.eraseP_eq_filter,
      ht.applied, List.filter_comm]
  forms := fun e he => ht.forms e (OrderedMap.mem_of_mem_erase he)

theorem Withdraws.orderly {cs : List (Constraint α)} {mentions : List (Mention α)}
    (h : t.Withdraws cs mentions u) (ht : t.Orderly) : u.Orderly := by
  induction h with
  | nothing => exact ht
  | passed h hc ih => exact ih
  | released h hc hr ih => exact ih.released _

theorem Withdraws.touches {cs : List (Constraint α)} {mentions : List (Mention α)}
    (h : t.Withdraws cs mentions u) : u.touches = t.touches := by
  induction h with
  | nothing => rfl
  | passed h hc ih => exact ih
  | released h hc hr ih => exact ih

end Withdrawing

section Orderliness

theorem orderly_empty (settings : Settings α) : (empty settings : Tracker α).Orderly where
  touches := List.nodup_nil
  registered := .nil
  proxied := by simp [empty]
  applied := rfl
  forms := by simp [empty, OrderedMap.empty]

/-- A call leaves an orderly tracker orderly. -/
theorem Tells.orderly (h : t.Tells call tellings u) (ht : t.Orderly) : u.Orderly := by
  cases h with
  | register distinct h =>
      refine h.orderly ht.touches distinct ?_ rfl ht.applied ht.forms
      intro c hc
      rcases List.mem_append.mp hc with hc | hc
      · exact ht.proxied c hc
      · exact (List.mem_filter.mp hc).2
  | unregister h => exact h.orderly ht
  | beginNone => exact ht
  | begin some distinct h =>
      refine h.orderly ?_ ht.registered ht.proxied (List.nil_append _).symm rfl ?_
      · rwa [keys_joined]
      · intro e he
        cases he
  | @move points =>
      have hsize : (t.moved points).touches.size = t.touches.size := by
        have := congrArg List.length (keys_moved t points)
        simpa [OrderedMap.keys, OrderedMap.size] using this
      refine ⟨?_, ht.registered, ht.proxied, ?_, ?_⟩
      · rw [keys_moved]
        exact ht.touches
      · refine ht.applied.trans (List.filter_congr (fun c _ => ?_))
        unfold fits
        rw [hsize]
      · rw [keys_moved]
        exact ht.forms
  | endNone hcall none => exact ht
  | ended hcall some h =>
      refine h.orderly ?_ ht.registered ht.proxied (List.nil_append _).symm rfl ?_
      · rw [keys_left ht.touches]
        exact ht.touches.filter _
      · intro e he
        cases he

theorem Tells.registered_eq (h : t.Tells call tellings u) (ht : t.Orderly) :
    u.registered = call.registers t.registered := by
  cases h with
  | register distinct h => obtain ⟨-, -⟩ := h; rfl
  | unregister h => exact h.registered_eq ht
  | beginNone => rfl
  | begin some distinct h => obtain ⟨-, -⟩ := h; rfl
  | move => rfl
  | endNone hcall none => rcases hcall with rfl | rfl <;> rfl
  | ended hcall some h =>
      obtain ⟨-, -⟩ := h
      rcases hcall with rfl | rfl <;> rfl

theorem Tells.touches_eq (h : t.Tells call tellings u) (ht : t.Orderly) :
    u.touches.keys = call.activates t.touches.keys := by
  cases h with
  | register distinct h => obtain ⟨-, -⟩ := h; rfl
  | unregister h => rw [h.touches]; rfl
  | beginNone => simp [TrackerCall.activates]
  | begin some distinct h => 
      obtain ⟨-, -⟩ := h
      exact keys_joined t _
  | move => exact keys_moved t _
  | @endNone _ ids hcall none =>
      have hall : t.touches.keys.filter (fun id => !ids.contains id) = t.touches.keys := by
        refine List.filter_eq_self.mpr (fun id hid => ?_)
        have := List.filter_eq_nil_iff.mp none id
        rw [OrderedMap.contains_iff_mem_keys] at this
        simpa using fun h => this h hid
      rcases hcall with rfl | rfl <;> exact hall.symm
  | @ended _ ids _ _ hcall some h =>
      obtain ⟨-, -⟩ := h
      have hkeys : (t.left (ids.filter t.touches.contains)).touches.keys =
          t.touches.keys.filter (fun id => !ids.contains id) := by
        rw [keys_left ht.touches]
        refine List.filter_congr (fun id hid => ?_)
        simp [OrderedMap.contains_iff_mem_keys, hid]
      rcases hcall with rfl | rfl <;> exact hkeys

theorem Withdraws.settings_eq {cs : List (Constraint α)} {mentions : List (Mention α)}
    (h : t.Withdraws cs mentions u) : u.settings = t.settings := by
  induction h with
  | nothing => rfl
  | passed h hc ih => exact ih
  | released h hc hr ih => exact ih

theorem Tells.settings_eq (h : t.Tells call tellings u) : u.settings = t.settings := by
  cases h with
  | register distinct h => obtain ⟨-, -⟩ := h; rfl
  | unregister h => exact h.settings_eq
  | beginNone => rfl
  | begin some distinct h => obtain ⟨-, -⟩ := h; rfl
  | move => rfl
  | endNone hcall none => rfl
  | ended hcall some h => obtain ⟨-, -⟩ := h; rfl

/-- A call that is answered breaks no promise. -/
theorem Tells.not_breaks (h : t.Tells call tellings u) (ht : t.Orderly) (b : Breach) :
    ¬ call.Breaks t.registered t.touches.keys b := by
  intro hb
  cases h with
  | register distinct h =>
      obtain ⟨rfl, hc, hany⟩ := hb
      rw [List.filter_append, List.filter_cons_of_pos hc, ← List.append_assoc] at distinct
      obtain ⟨r, hr, hrc⟩ := List.any_eq_true.mp hany
      refine List.any_eq_false.mp distinct.any_eq_false r ?_ hrc
      rcases List.mem_append.mp hr with hr | hr
      · exact List.mem_append_left _ hr
      · refine List.mem_append_right _ (List.mem_filter.mpr ⟨hr, ?_⟩)
        exact (Constraint.hasProxies_congr hrc).trans hc
  | unregister h =>
      obtain - | ⟨rfl, hc, hany⟩ := hb
      obtain ⟨_, v, hv, hr⟩ := h.exists_isRegistered hc
      obtain ⟨r, hr, hrc⟩ := List.any_eq_true.mp hr
      rw [hv.registered_eq ht, List.mem_filter, Bool.not_eq_true'] at hr
      obtain ⟨hr, hbefore⟩ := hr
      rcases hany with hany | hany
      · exact List.any_eq_false.mp hany r hr hrc
      · obtain ⟨d, hd, hdc⟩ := List.any_eq_true.mp hany
        refine List.any_eq_false.mp hbefore d hd ?_
        rw [Constraint.beq_comm, Constraint.beq_congr hrc, Constraint.beq_comm]
        exact hdc
  | beginNone =>
      obtain - | - | ⟨hpoints, hp⟩ := hb
      simp at hpoints
  | begin some distinct h =>
      obtain - | - | ⟨rfl, hp⟩ := hb
      rw [List.map_append, List.map_cons, ← List.append_assoc] at distinct
      exact (List.nodup_middle.mp distinct).notMem (List.mem_append_left _ hp)
  | move => cases hb
  | endNone hcall none => rcases hcall with rfl | rfl <;> cases hb
  | ended hcall some h => rcases hcall with rfl | rfl <;> cases hb

end Orderliness

section Runs

variable {m : Type → Type} [Monad m] [MonadExceptOf Halt m] {τ : Type} [Stateful m τ]
variable {listener : Listener m α} {T : τ → List (TouchEvent α) → τ → Prop} {P : Halt → Prop}

/-- What a run of calls tells, call by call, and the tracker after it. -/
inductive Recounts (t : Tracker α) :
    List (TrackerCall α) → List (List (Telling α)) → Tracker α → Prop
  | nothing : Recounts t [] [] t
  | call {calls chapters u call tellings v} (h : Recounts t calls chapters u)
      (hcall : u.Tells call tellings v) :
      Recounts t (calls ++ [call]) (chapters ++ [tellings]) v

variable {calls : List (TrackerCall α)} {chapters : List (List (Telling α))}

theorem Recounts.orderly (h : t.Recounts calls chapters u) (ht : t.Orderly) : u.Orderly := by
  induction h with
  | nothing => exact ht
  | call h hcall ih => exact hcall.orderly ih

theorem Recounts.registered_eq (h : t.Recounts calls chapters u) (ht : t.Orderly) :
    u.registered = calls.foldl TrackerCall.registers t.registered := by
  induction h with
  | nothing => rfl
  | call h hcall ih =>
      rw [List.foldl_append, ← ih]
      exact hcall.registered_eq (h.orderly ht)

theorem Recounts.touches_eq (h : t.Recounts calls chapters u) (ht : t.Orderly) :
    u.touches.keys = calls.foldl TrackerCall.activates t.touches.keys := by
  induction h with
  | nothing => rfl
  | call h hcall ih =>
      rw [List.foldl_append, ← ih]
      exact hcall.touches_eq (h.orderly ht)

theorem Recounts.settings_eq (h : t.Recounts calls chapters u) : u.settings = t.settings := by
  induction h with
  | nothing => rfl
  | call h hcall ih => exact hcall.settings_eq.trans ih

theorem Recounts.length_eq (h : t.Recounts calls chapters u) : chapters.length = calls.length := by
  induction h with
  | nothing => rfl
  | call h hcall ih => rw [List.length_append, List.length_append, ih]; rfl

/-- A run may be cut at any of its calls. -/
theorem Recounts.exists_tells {first rest : List (TrackerCall α)}
    (h : t.Recounts (first ++ call :: rest) chapters u) :
    ∃ v w earlier tellings later, chapters = earlier ++ tellings :: later ∧
      t.Recounts first earlier v ∧ v.Tells call tellings w ∧ w.Recounts rest later u := by
  generalize hcalls : first ++ call :: rest = calls at h
  induction h generalizing rest with
  | nothing => simp at hcalls
  | @call calls chapters v d tellings w h hcall ih =>
      obtain rfl | ⟨rest', d', rfl⟩ := rest.eq_nil_or_concat'
      · obtain ⟨rfl, hd⟩ := List.append_inj' hcalls rfl
        obtain rfl := (List.cons.inj hd).1
        exact ⟨v, w, chapters, tellings, [], rfl, h, hcall, .nothing⟩
      · rw [← List.cons_append, ← List.append_assoc] at hcalls
        obtain ⟨rfl, hd⟩ := List.append_inj' hcalls rfl
        obtain rfl := (List.cons.inj hd).1
        obtain ⟨v', w', earlier, others, later, rfl, hfirst, htells, hrest⟩ := ih rfl
        exact ⟨v', w', earlier, others, later ++ [tellings], by simp, hfirst, htells,
          hrest.call hcall⟩

/-- A run that answers is recounted, and so is each part that it begins with. -/
theorem exists_recounts (hears : listener.Hears T P) (ht : t.Orderly)
    (calls : List (TrackerCall α)) {s : τ} {u : Tracker α} {s' : τ}
    (hrun : exec (t.run listener calls) s = .ok (u, s')) :
    ∃ chapters, T s (chapters.flatten.map Telling.event) s' ∧ t.Recounts calls chapters u ∧
      ∀ n v s'', exec (t.run listener (calls.take n)) s = .ok (v, s'') →
        T s ((chapters.take n).flatten.map Telling.event) s'' ∧
          t.Recounts (calls.take n) (chapters.take n) v := by
  induction calls using List.reverseRecOn generalizing u s' with
  | nil =>
      have hstart : exec (t.run listener []) s = .ok (t, s) := exec_pure t s
      obtain ⟨rfl, rfl⟩ := Prod.mk.inj (Except.ok.inj (hstart.symm.trans hrun))
      refine ⟨[], hears.nothing s, .nothing, fun n v s'' hv => ?_⟩
      rw [List.take_nil, hstart] at hv
      obtain ⟨rfl, rfl⟩ := Prod.mk.inj (Except.ok.inj hv)
      rw [List.take_nil, List.take_nil]
      exact ⟨hears.nothing s, .nothing⟩
  | append_singleton calls call ih =>
      have hsplit := exec_foldlM_append (perform listener) calls call t s
      change exec (t.run listener (calls ++ [call])) s =
        (exec (t.run listener calls) s).bind _ at hsplit
      cases hbefore : exec (t.run listener calls) s with
      | error halt =>
          rw [hsplit, hbefore] at hrun
          cases hrun
      | ok p =>
          obtain ⟨chapters, hs, hp, hprefix⟩ := ih hbefore
          have hlast := hrun
          rw [hsplit, hbefore] at hlast
          obtain ⟨tellings, hs', htells⟩ :=
            (meets_perform hears (hp.orderly ht) call).of_ok hlast
          have hfull : T s ((chapters ++ [tellings]).flatten.map Telling.event) s' := by
            rw [List.flatten_append, List.map_append]
            refine hears.more hs ?_
            simpa using hs'
          refine ⟨chapters ++ [tellings], hfull, hp.call htells, fun n v s'' hv => ?_⟩
          by_cases hn : n ≤ calls.length
          · rw [List.take_append_of_le_length hn] at hv ⊢
            rw [List.take_append_of_le_length (hp.length_eq ▸ hn)]
            exact hprefix n v s'' hv
          · have hlength := hp.length_eq
            rw [List.take_of_length_le (by simp; omega)] at hv ⊢
            rw [List.take_of_length_le (by simp; omega)]
            obtain ⟨rfl, rfl⟩ := Prod.mk.inj (Except.ok.inj (hrun.symm.trans hv))
            exact ⟨hfull, hp.call htells⟩

end Runs

section Results

variable {σ : Type}

/-- After every run exactly the registered constraints that fit are applied, in the order
of their registration, each in its concrete form under the active touches.  A further
call halts only with its listener or because the caller breaks a promise, and then it
does halt. -/
theorem applied_iff_fitting (settings : Settings α) (listener : Listener (StateT σ (Except Halt)) α)
    (calls : List (TrackerCall α)) (start : σ) {t : Tracker α} {state : σ}
    (hrun : ((empty settings).run listener calls).run start = .ok (t, state)) :
    t.registered = calls.foldl TrackerCall.registers [] ∧
    t.touches.keys = calls.foldl TrackerCall.activates [] ∧
    t.applied.keys =
      t.registered.filter (fun c => c.places = Finset.range t.touches.size) ∧
    (∀ e ∈ t.applied.entries, e.1.FormOf t.touches.keys e.2 ∧ e.2.hasProxies = false ∧
      ∀ x ∈ e.2.expression.terms, x.isConstant = false) ∧
    ∀ call,
      (∀ b, call.Breaks t.registered t.touches.keys b →
        ∀ answer, (t.perform listener call).run state ≠ .ok answer) ∧
      ∀ halt, (t.perform listener call).run state = .error halt →
        listener.Halts halt ∨
          ∃ b, halt = .breach b ∧ call.Breaks t.registered t.touches.keys b := by
  have hears := listener.hears_anything
  have hempty : (empty settings : Tracker α).Orderly := orderly_empty settings
  obtain ⟨chapters, -, h, -⟩ := exists_recounts hears hempty calls hrun
  have ht := h.orderly hempty
  refine ⟨h.registered_eq hempty, h.touches_eq hempty, ?_, ?_, ?_⟩
  · refine ht.applied.trans (List.filter_congr (fun c _ => ?_))
    rw [Bool.eq_iff_iff, fits_iff, decide_eq_true_iff]
  · intro e he
    have hform := ht.forms e he
    exact ⟨hform, hform.hasProxies, hform.isConstant⟩
  · intro call
    have hcall := meets_perform (s := state) hears ht call
    refine ⟨fun b hb answer hanswer => ?_, fun halt hhalt => hcall.of_error hhalt⟩
    obtain ⟨tellings, -, htells⟩ := hcall.of_ok hanswer
    exact htells.not_breaks ht b hb

/-- A constraint for one touch gives way to one for two touches, and comes back for the
touch that stays when the other one lifts; that touch cannot begin again. -/
theorem pull_follows_remaining_touch :
    ∃ (t : Tracker Rat) (pull pinch : Constraint Rat),
      pull = ⟨"pull", ⟨[.symbolic ⟨.proxy 0, .positionX⟩ 1, .sampled ⟨.entity ⟨0⟩, .width⟩ 2], 0⟩,
        .equalTo, .strong⟩ ∧
      pinch = ⟨"pinch", ⟨[.symbolic ⟨.proxy 1, .positionX⟩ 1,
        .symbolic ⟨.proxy 0, .positionX⟩ (-1)], 0⟩, .greaterOrEqual, .weak⟩ ∧
      ((empty .standard).run (.ofValues (fun _ => 3) : Listener (StateT Unit (Except Halt)) Rat)
        [.register [pull, pinch], .beginTouches [⟨⟨7⟩, 1, 2⟩, ⟨⟨9⟩, 3, 4⟩],
          .endTouches [⟨7⟩]]).run () = .ok (t, ()) ∧
      t.touches.keys = [⟨9⟩] ∧ t.applied.keys = [pull] ∧
      (∀ e ∈ t.applied.entries, pull.FormOf [⟨9⟩] e.2) ∧
      ∀ answer, (t.perform (.ofValues (fun _ => 3) : Listener (StateT Unit (Except Halt)) Rat)
        (.beginTouches [⟨⟨9⟩, 0, 0⟩])).run () ≠ .ok answer := by
  have hsome : (((empty .standard).run
      (.ofValues (fun _ => 3) : Listener (StateT Unit (Except Halt)) Rat)
      [.register [⟨"pull", ⟨[.symbolic ⟨.proxy 0, .positionX⟩ 1,
          .sampled ⟨.entity ⟨0⟩, .width⟩ 2], 0⟩, .equalTo, .strong⟩,
        ⟨"pinch", ⟨[.symbolic ⟨.proxy 1, .positionX⟩ 1,
          .symbolic ⟨.proxy 0, .positionX⟩ (-1)], 0⟩, .greaterOrEqual, .weak⟩],
        .beginTouches [⟨⟨7⟩, 1, 2⟩, ⟨⟨9⟩, 3, 4⟩], .endTouches [⟨7⟩]]).run ()).toOption.any
          (fun _ => true) = true := by
    decide +kernel
  obtain ⟨⟨t, state⟩, hrun, -⟩ := exists_ok_of_any hsome
  obtain ⟨hregistered, htouches, happlied, hforms, hcalls⟩ :=
    applied_iff_fitting .standard (.ofValues (fun _ => 3)) _ () hrun
  have htouches : t.touches.keys = [⟨9⟩] := htouches.trans (by decide +kernel)
  have hsize : t.touches.size = 1 := by
    have := congrArg List.length htouches
    simpa [OrderedMap.keys, OrderedMap.size] using this
  have hkeys := happlied
  rw [hregistered, hsize] at hkeys
  refine ⟨t, _, _, rfl, rfl, hrun, htouches, hkeys.trans rfl, fun e he => ?_, ?_⟩
  · have hmem := OrderedMap.mem_keys_of_mem he
    rw [hkeys] at hmem
    rw [← htouches, ← List.mem_singleton.mp hmem]
    exact (hforms e he).1
  · exact (hcalls _).1 _ (.begunTwice (List.nil_append _).symm (by simp [htouches]))

end Results

end Tracker

end Tether
