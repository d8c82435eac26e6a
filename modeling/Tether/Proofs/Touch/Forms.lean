import Mathlib.Data.Finset.Card
import Mathlib.Data.Finset.Range
import Tether.Proofs.Touch.Hearing
import Tether.Touch.Tracker

/-!
# Concrete forms of proxy constraints

A proxy constraint fits if the places that it refers to are exactly those of the
active touches.  Then its concrete form is the constraint that it stands for: every
term that is solved for stays, with the touch at its place put in for a proxy, and
nothing in it refers to a proxy any more.
-/

namespace Tether

variable {α : Type}

section Places

/-- The places that the terms of a constraint refer to. -/
def Constraint.places (c : Constraint α) : Finset Nat :=
  (c.expression.terms.filterMap (·.unknown.target.proxyIndex?)).toFinset

namespace Expression

theorem mem_insertIndex {n k : Nat} {l : List Nat} :
    k ∈ insertIndex n l ↔ k = n ∨ k ∈ l := by
  induction l with
  | nil => simp [insertIndex]
  | cons a rest ih =>
      unfold insertIndex
      split
      · simp
      · split
        · rename_i h
          simp [h]
        · rw [List.mem_cons, List.mem_cons, ih]
          tauto

theorem pairwise_insertIndex (n : Nat) {l : List Nat} (h : l.Pairwise (· < ·)) :
    (insertIndex n l).Pairwise (· < ·) := by
  induction l with
  | nil => simp [insertIndex]
  | cons a rest ih =>
      obtain ⟨ha, hrest⟩ := List.pairwise_cons.mp h
      unfold insertIndex
      split
      · rename_i hlt
        refine List.pairwise_cons.mpr ⟨fun k hk => ?_, h⟩
        rcases List.mem_cons.mp hk with rfl | hk
        · exact hlt
        · exact hlt.trans (ha k hk)
      · split
        · exact h
        · refine List.pairwise_cons.mpr ⟨fun k hk => ?_, ih hrest⟩
          rcases mem_insertIndex.mp hk with rfl | hk
          · omega
          · exact ha k hk

theorem pairwise_proxies (e : Expression α) : e.proxies.Pairwise (· < ·) := by
  unfold proxies
  generalize e.terms.filterMap _ = l
  induction l with
  | nil => exact .nil
  | cons n rest ih => exact pairwise_insertIndex n ih

theorem mem_proxies {e : Expression α} {n : Nat} :
    n ∈ e.proxies ↔ n ∈ e.terms.filterMap (·.unknown.target.proxyIndex?) := by
  unfold proxies
  generalize e.terms.filterMap _ = l
  induction l with
  | nil => rfl
  | cons k rest ih => rw [List.foldr_cons, mem_insertIndex, ih, List.mem_cons]

end Expression

theorem Constraint.places_eq (c : Constraint α) : c.places = c.expression.proxies.toFinset := by
  ext n
  simp only [places, List.mem_toFinset, Expression.mem_proxies]

theorem Constraint.mem_places {c : Constraint α} {x : Term α} (hx : x ∈ c.expression.terms)
    {n : Nat} (hn : x.unknown.target.proxyIndex? = some n) : n ∈ c.places := by
  rw [places, List.mem_toFinset]
  exact List.mem_filterMap.mpr ⟨x, hx, hn⟩

/-- A constraint fits if the places it refers to are those of the active touches. -/
theorem Tracker.fits_iff {t : Tracker α} {c : Constraint α} :
    t.fits c = true ↔ c.places = Finset.range t.touches.size := by
  have hcard : c.places.card = c.expression.proxies.length := by
    rw [c.places_eq]
    refine List.toFinset_card_of_nodup ?_
    exact c.expression.pairwise_proxies.imp (fun h => Nat.ne_of_lt h)
  have hall : c.expression.proxies.all (fun i => decide (i < t.touches.size)) = true ↔
      c.places ⊆ Finset.range t.touches.size := by
    rw [List.all_eq_true, c.places_eq, Finset.subset_iff]
    simp
  unfold fits
  rw [Bool.and_eq_true, hall, beq_iff_eq, ← hcard]
  constructor
  · rintro ⟨hsize, hsub⟩
    refine Finset.eq_of_subset_of_card_le hsub ?_
    rw [Finset.card_range, hsize]
  · intro h
    exact ⟨by rw [h, Finset.card_range], h.subset⟩

end Places

section Forms

/-- A term of a concrete form stands for a term of the constraint: a touch is put in
for the proxy that refers to its place, and all else stays. -/
structure Term.Stands (ids : List TouchId) (x y : Term α) : Prop where
  coefficient : y.coefficient = x.coefficient
  property : y.unknown.property = x.unknown.property
  target : match x.unknown.target with
    | .proxy index => ids[index.toNat]?.map Target.touch = some y.unknown.target
    | target => y.unknown.target = target
  symbolic : y.isConstant = false

/-- A constraint is a concrete form of a proxy constraint under some touches, the oldest
first. -/
structure Constraint.FormOf (ids : List TouchId) (c d : Constraint α) : Prop where
  relation : d.relation = c.relation
  strength : d.strength = c.strength
  terms : List.Forall₂ (Term.Stands ids)
    (c.expression.terms.filter (fun x => !x.isConstant)) d.expression.terms

variable {ids : List TouchId}

theorem Term.Stands.not_isProxy {x y : Term α} (h : x.Stands ids y) :
    y.unknown.isProxy = false := by
  have ht := h.target
  unfold Variable.isProxy
  cases hx : x.unknown.target with
  | entity handle => rw [hx] at ht; rw [ht]; rfl
  | touch id => rw [hx] at ht; rw [ht]; rfl
  | proxy index =>
      rw [hx] at ht
      obtain ⟨id, -, hid⟩ := Option.map_eq_some_iff.mp ht
      rw [← hid]
      rfl

theorem Constraint.FormOf.exists_stands {c d : Constraint α} (h : c.FormOf ids d) {y : Term α}
    (hy : y ∈ d.expression.terms) : ∃ x : Term α, x.Stands ids y := by
  obtain ⟨n, hn, rfl⟩ := List.getElem_of_mem hy
  have hn' := h.terms.length_eq ▸ hn
  exact ⟨_, h.terms.get hn' hn⟩

theorem Constraint.FormOf.hasProxies {c d : Constraint α} (h : c.FormOf ids d) :
    d.hasProxies = false := by
  refine List.any_eq_false.mpr (fun y hy => ?_)
  obtain ⟨x, hxy⟩ := h.exists_stands hy
  simp [hxy.not_isProxy]

theorem Constraint.FormOf.isConstant {c d : Constraint α} (h : c.FormOf ids d) :
    ∀ y ∈ d.expression.terms, y.isConstant = false := by
  intro y hy
  obtain ⟨x, hxy⟩ := h.exists_stands hy
  exact hxy.symbolic

end Forms

section Replacing

variable {t : Tracker α} {v : Variable}

namespace Tracker

theorem property_replacement : (t.replacement v).property = v.property := by
  unfold replacement
  split <;> rfl

theorem replacement_of_not_isProxy (h : v.isProxy = false) : t.replacement v = v := by
  unfold replacement
  cases hv : v.target with
  | proxy index => simp [Variable.isProxy, hv, Target.isProxy] at h
  | entity handle => rfl
  | touch id => rfl

theorem replacement_of_proxy {index : UInt32} (hv : v.target = .proxy index)
    (h : index.toNat < t.touches.size) :
    t.touches.keys[index.toNat]?.map Target.touch = some (t.replacement v).target := by
  have hget : t.touches.entries[index.toNat]? = some t.touches.entries[index.toNat] :=
    List.getElem?_eq_getElem h
  unfold replacement OrderedMap.keys
  simp [hv, Target.proxyIndex?, hget, Variable.withTarget]

/-- The replacement of a variable at a place that is taken stands for it. -/
theorem stands_replacement {x : Term α}
    (h : ∀ n, x.unknown.target.proxyIndex? = some n → n < t.touches.size) :
    x.Stands t.touches.keys (.symbolic (t.replacement x.unknown) x.coefficient) where
  coefficient := rfl
  property := property_replacement
  target := by
    cases hx : x.unknown.target with
    | proxy index =>
        refine replacement_of_proxy hx (h _ ?_)
        rw [hx]
        rfl
    | entity handle =>
        have hv : x.unknown.isProxy = false := by simp [Variable.isProxy, hx, Target.isProxy]
        rw [Term.symbolic, replacement_of_not_isProxy hv]
        exact hx
    | touch id =>
        have hv : x.unknown.isProxy = false := by simp [Variable.isProxy, hx, Target.isProxy]
        rw [Term.symbolic, replacement_of_not_isProxy hv]
        exact hx
  symbolic := rfl

end Tracker

end Replacing

section Grounding

open Stateful

variable [Scalar α] {m : Type → Type} [Monad m] [MonadExceptOf Halt m] {τ : Type} [Stateful m τ]
variable {listener : Listener m α} {T : τ → List (TouchEvent α) → τ → Prop} {P : Halt → Prop}
variable {t : Tracker α} {s : τ}

/-- Values that were read, as events. -/
def readings (values : List (Variable × α)) : List (TouchEvent α) :=
  values.map (fun r => .sampled r.1 r.2)

/-- No proxy is left where the place of a proxy is taken. -/
theorem meets_concrete {g : Grounded α} {v : Variable}
    (h : ∀ n, v.target.proxyIndex? = some n → n < t.touches.size)
    {Q : (Grounded α × Variable) × τ → Prop}
    (hQ : ∀ targets, Q (({ g with targets }, t.replacement v), s)) :
    Meets (exec (g.concrete (fun v => (pure (t.replacement v) : m Variable)) v) s) P Q := by
  have hstands : (t.replacement v).isProxy = false :=
    (Tracker.stands_replacement (x := .symbolic v (Scalar.one : α)) h).not_isProxy
  unfold Grounded.concrete
  split
  · refine meets_bind (meets_pure ?_)
    rw [if_neg (by simpa using hstands)]
    refine meets_pure ?_
    unfold Grounded.noteTarget
    split
    · exact hQ g.targets
    · exact hQ _
  · rename_i hv
    refine meets_pure ?_
    have := hQ g.targets
    rwa [Tracker.replacement_of_not_isProxy (by simpa using hv)] at this

theorem meets_add (hears : listener.Hears T P) {g : Grounded α} {x : Term α}
    (h : ∀ n, x.unknown.target.proxyIndex? = some n → n < t.touches.size) :
    Meets (exec (g.add (fun v => pure (t.replacement v)) listener.sample x) s) P
      (fun p => ∃ values, T s (readings values) p.2 ∧
        p.1.expression.terms = g.expression.terms ++ if x.isConstant then [] else
          [.symbolic (t.replacement x.unknown) x.coefficient]) := by
  unfold Grounded.add
  refine meets_bind (meets_concrete h (fun targets => ?_))
  dsimp only
  split
  · rename_i hx
    refine meets_bind ((hears.sample _ _).mono (fun _ => id) (fun p hp => ?_))
    exact meets_pure ⟨[(_, p.1)], hp, by simp [Grounded.addConstant]⟩
  · rename_i hx
    exact meets_pure ⟨[], hears.nothing _, by simp [Grounded.push, Expression.push]⟩

/-- Making a constraint that fits concrete reads values and gives a concrete form. -/
theorem meets_concreteForm (hears : listener.Hears T P) {c : Constraint α} (h : t.fits c = true) :
    Meets (exec (t.concreteForm listener c) s) P
      (fun p => ∃ values, T s (readings values) p.2 ∧ c.FormOf t.touches.keys p.1) := by
  have hplaces := Tracker.fits_iff.mp h
  unfold Tracker.concreteForm Constraint.ground
  refine meets_bind ?_
  refine (meets_foldlM (I := fun before p => ∃ values, T s (readings values) p.2 ∧
    List.Forall₂ (Term.Stands t.touches.keys) (before.filter (fun x => !x.isConstant))
      p.1.expression.terms) c.expression.terms ⟨[], hears.nothing _, .nil⟩ ?_).mono
    (fun _ => id) ?_
  · rintro before x after g u hterms ⟨values, hvalues, hforms⟩
    have hx : ∀ n, x.unknown.target.proxyIndex? = some n → n < t.touches.size := by
      intro n hn
      have hmem : x ∈ c.expression.terms := by simp [hterms]
      have := Constraint.mem_places hmem hn
      rwa [hplaces, Finset.mem_range] at this
    refine (meets_add hears hx).mono (fun _ => id) ?_
    rintro p ⟨values', hvalues', hp⟩
    refine ⟨values ++ values', ?_, ?_⟩
    · rw [readings, List.map_append]
      exact hears.more hvalues hvalues'
    · rw [hp, List.filter_append]
      refine List.rel_append hforms ?_
      cases hc : x.isConstant with
      | true => simp [hc]
      | false => simpa [hc] using Tracker.stands_replacement hx
  · rintro p ⟨values, hvalues, hforms⟩
    exact meets_pure ⟨values, hvalues, rfl, rfl, hforms⟩

end Grounding

end Tether
