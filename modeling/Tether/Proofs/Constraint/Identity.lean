import Mathlib.Algebra.Order.Ring.Nat
import Mathlib.Data.List.Dedup
import Tether.Constraint.Identity
import Tether.OrderedMap
import Tether.Scalar.Binary64

/-!
# The order of constraints is an order of contents

Terms, expressions and constraints are compared part by part, and a list of terms
is compared by its length first.  If the scalars are ranked by a total order that
tells exactly the different scalars apart, so do all three comparisons.

* The comparison of two lists of equal length, position by position, is the
  lexicographic one, so the laws of the library apply to it (`orderAll_eq`).
* Equal by comparison, equal by content and equal in digest are the same thing
  (`Identity`).
* A lookup that trusts the hash of a digest, or walks along an ordered set, finds
  what a lookup by content finds (`Lookups`).

Double precision numbers are ranked by their bits, so all of this holds of them
whatever the numbers are: zeros of both signs, infinities, any not-a-number.
-/

namespace Tether

open Std

section Keys

theorem Property.ordinal_injective : Function.Injective Property.ordinal := by
  intro p q h
  have hp := ofOrdinal?_ordinal p
  rw [h, ofOrdinal?_ordinal] at hp
  exact (Option.some.inj hp).symm

theorem Relation.ordinal_injective : Function.Injective Relation.ordinal := by
  intro r q h
  have hr := ofOrdinal?_ordinal r
  rw [h, ofOrdinal?_ordinal] at hr
  exact (Option.some.inj hr).symm

instance : TransOrd Target :=
  inferInstanceAs (TransCmp (compareLex (compareOn Target.tier) (compareOn Target.number)))

instance : LawfulEqOrd Target where
  eq_of_compare {a b} h := by
    obtain ⟨htier, hnumber⟩ := Ordering.then_eq_eq.mp h
    have htier := LawfulEqOrd.eq_of_compare htier
    have hnumber := LawfulEqOrd.eq_of_compare hnumber
    rcases a with ⟨⟨a⟩⟩ | ⟨⟨a⟩⟩ | a <;> rcases b with ⟨⟨b⟩⟩ | ⟨⟨b⟩⟩ | b <;>
      simp_all [Target.tier, Target.number, UInt64.toNat_inj, UInt32.toNat_inj]

instance : TransOrd Variable :=
  inferInstanceAs
    (TransCmp (compareLex (compareOn Variable.target) (compareOn fun v => v.property.ordinal)))

instance : LawfulEqOrd Variable where
  eq_of_compare {a b} h := by
    obtain ⟨htarget, hproperty⟩ := Ordering.then_eq_eq.mp h
    have htarget := LawfulEqOrd.eq_of_compare htarget
    have hproperty := Property.ordinal_injective (LawfulEqOrd.eq_of_compare hproperty)
    cases a
    cases b
    simp_all

end Keys

section Ranks

namespace Binary64

theorem signed_iff (x : Binary64) : x.signed = true ↔ 2 ^ 63 ≤ x.bits.toNat := by
  have hx := x.bits.toNat_lt
  rw [signed, beq_iff_eq, ← UInt64.toNat_inj, UInt64.toNat_shiftRight]
  simp [Nat.shiftRight_eq_div_pow]
  omega

/-- Numbers with the sign bit set run backwards through the lower half of the keys,
the others forwards through the upper half. -/
theorem toNat_rankKey (x : Binary64) :
    x.rankKey.toNat =
      if 2 ^ 63 ≤ x.bits.toNat then 2 ^ 64 - 1 - x.bits.toNat else 2 ^ 63 + x.bits.toNat := by
  simp only [rankKey, signed_iff]
  split
  · exact UInt64.toNat_not x.bits
  · rename_i h
    have h := Nat.two_pow_add_eq_or_of_lt (Nat.lt_of_not_le h) 1
    rw [UInt64.toNat_or, Nat.or_comm]
    simpa using h.symm

theorem rankKey_injective : Function.Injective rankKey := by
  intro x y h
  have hx := x.bits.toNat_lt
  have hy := y.bits.toNat_lt
  have hkeys := congrArg UInt64.toNat h
  rw [toNat_rankKey, toNat_rankKey] at hkeys
  have hbits : x.bits.toNat = y.bits.toNat := by
    split at hkeys <;> split at hkeys <;> omega
  exact congrArg Binary64.mk (UInt64.toNat_inj.mp hbits)

instance : TransCmp (Scalar.rank : Binary64 → Binary64 → Ordering) :=
  inferInstanceAs (TransCmp (compareOn rankKey))

instance : LawfulEqCmp (Scalar.rank : Binary64 → Binary64 → Ordering) where
  compare_self {x} := ReflOrd.compare_self (a := x.rankKey)
  eq_of_compare h := rankKey_injective (LawfulEqOrd.eq_of_compare h)

end Binary64

end Ranks

section Order

variable {α β : Type}

/-- Comparing by a part of a thing is as lawful as comparing the parts. -/
theorem transCmp_on (cmp : α → α → Ordering) [TransCmp cmp] (f : β → α) :
    TransCmp (fun a b => cmp (f a) (f b)) where
  eq_swap := OrientedCmp.eq_swap
  isLE_trans := TransCmp.isLE_trans

variable [Scalar α]

theorem Term.orderAll_eq {as bs : List (Term α)} (h : as.length = bs.length) :
    orderAll as bs = List.compareLex order as bs := by
  induction as generalizing bs with
  | nil => cases bs <;> simp_all [orderAll, List.compareLex]
  | cons a as ih =>
      cases bs with
      | nil => simp at h
      | cons b bs =>
          rw [orderAll, List.compareLex_cons_cons, ih (by simpa using h)]

/-- Lists of different lengths are decided by these; the terms in turn only speak if
there are equally many. -/
theorem Term.then_orderAll (as bs : List (Term α)) :
    (compare as.length bs.length).then (orderAll as bs) =
      compareLex (compareOn List.length) (List.compareLex order) as bs := by
  by_cases h : as.length = bs.length
  · rw [orderAll_eq h]
    rfl
  · have hlt : compare as.length bs.length ≠ .eq := fun he => h (LawfulEqOrd.eq_of_compare he)
    unfold compareLex compareOn
    revert hlt
    cases compare as.length bs.length <;> simp [Ordering.then]

theorem Expression.order_eq :
    (order : Expression α → Expression α → Ordering) =
      compareLex (fun a b => Scalar.rank a.constant b.constant) (fun a b =>
        compareLex (compareOn List.length) (List.compareLex Term.order) a.terms b.terms) := by
  funext a b
  rw [order, Term.then_orderAll]
  rfl

variable [TransCmp (Scalar.rank : α → α → Ordering)]

instance : TransOrd (Term α) :=
  have := transCmp_on (Scalar.rank : α → α → Ordering) Term.coefficient
  inferInstanceAs <| TransCmp <|
    compareLex (compareOn Term.unknown) <|
      compareLex (fun a b => Scalar.rank a.coefficient b.coefficient)
        (compareOn fun t => t.isConstant.toNat)

instance : TransOrd (Expression α) := by
  have := transCmp_on (Scalar.rank : α → α → Ordering) Expression.constant
  have : TransCmp (Term.order : Term α → Term α → Ordering) := inferInstanceAs (TransOrd (Term α))
  have := transCmp_on (compareLex (compareOn List.length) (List.compareLex Term.order))
    (fun e : Expression α => e.terms)
  change TransCmp Expression.order
  rw [Expression.order_eq]
  infer_instance

instance : TransOrd (Constraint α) :=
  have := transCmp_on (Scalar.rank : α → α → Ordering)
    (fun c : Constraint α => c.strength.value)
  inferInstanceAs <| TransCmp <|
    compareLex (compareOn Constraint.expression) <|
      compareLex (compareOn fun c => c.relation.ordinal)
        (fun a b => Scalar.rank a.strength.value b.strength.value)

variable [LawfulEqCmp (Scalar.rank : α → α → Ordering)]

instance : LawfulEqOrd (Term α) where
  eq_of_compare {a b} h := by
    obtain ⟨hunknown, h⟩ := Ordering.then_eq_eq.mp h
    obtain ⟨hcoefficient, hconstant⟩ := Ordering.then_eq_eq.mp h
    have hunknown := LawfulEqOrd.eq_of_compare hunknown
    have hcoefficient := LawfulEqCmp.eq_of_compare hcoefficient
    have hconstant := LawfulEqOrd.eq_of_compare hconstant
    rcases a with ⟨_, _, _ | _⟩ <;> rcases b with ⟨_, _, _ | _⟩ <;> simp_all

instance : LawfulEqOrd (Expression α) where
  eq_of_compare {a b} h := by
    have : LawfulEqCmp (Term.order : Term α → Term α → Ordering) :=
      inferInstanceAs (LawfulEqOrd (Term α))
    rw [show compare a b = Expression.order a b from rfl, Expression.order_eq] at h
    obtain ⟨hconstant, h⟩ := Ordering.then_eq_eq.mp h
    obtain ⟨-, hterms⟩ := Ordering.then_eq_eq.mp h
    have hconstant := LawfulEqCmp.eq_of_compare hconstant
    have hterms := LawfulEqCmp.eq_of_compare hterms
    cases a
    cases b
    simp_all

namespace Constraint

/-- Constraints compare as equal exactly if they have the same content. -/
theorem compare_eq_iff {a b : Constraint α} :
    compare a b = .eq ↔ a.content = b.content := by
  change ((compare a.expression b.expression).then
    ((compare a.relation.ordinal b.relation.ordinal).then
      (Scalar.rank a.strength.value b.strength.value))) = .eq ↔ _
  rw [Ordering.then_eq_eq, Ordering.then_eq_eq, Std.compare_eq_iff_eq, Std.compare_eq_iff_eq,
    LawfulEqCmp.compare_eq_iff_eq, Relation.ordinal_injective.eq_iff]
  rcases a with ⟨_, _, _, ⟨_⟩⟩
  rcases b with ⟨_, _, _, ⟨_⟩⟩
  simp [content]

theorem beq_iff_compare {a b : Constraint α} : (a == b) = true ↔ compare a b = .eq := by
  rw [compare_eq_iff]
  exact decide_eq_true_iff

end Constraint

end Order

section Digest

variable {α : Type}

theorem Term.digest_injective : Function.Injective (digest : Term α → List (Word α)) := by
  rintro ⟨_, _, _⟩ ⟨_, _, _⟩ h
  simpa [digest] using h

/-- Every term has as many words as every other, so the words of equally many terms
can be told apart, whatever follows them. -/
theorem Term.digests_append_inj {as bs : List (Term α)} {v w : List (Word α)}
    (hlength : as.length = bs.length)
    (h : as.flatMap digest ++ v = bs.flatMap digest ++ w) : as = bs ∧ v = w := by
  induction as generalizing bs with
  | nil => cases bs <;> simp_all
  | cons a as ih =>
      cases bs with
      | nil => simp at hlength
      | cons b bs =>
          simp only [List.flatMap_cons, List.append_assoc] at h
          obtain ⟨ha, h⟩ := List.append_inj h rfl
          obtain ⟨has, hv⟩ := ih (by simpa using hlength) h
          exact ⟨by rw [digest_injective ha, has], hv⟩

theorem Expression.digest_append_inj {a b : Expression α} {v w : List (Word α)}
    (h : a.digest ++ v = b.digest ++ w) : a = b ∧ v = w := by
  simp only [digest, List.cons_append, List.cons.injEq, Word.scalar.injEq, Word.count.injEq] at h
  obtain ⟨hconstant, hlength, h⟩ := h
  obtain ⟨hterms, hv⟩ := Term.digests_append_inj hlength h
  cases a
  cases b
  exact ⟨by simp_all, hv⟩

theorem Expression.digest_injective :
    Function.Injective (digest : Expression α → List (Word α)) := by
  intro a b h
  exact (digest_append_inj (v := []) (w := []) (by rw [h])).1

theorem Constraint.digest_eq_iff {a b : Constraint α} :
    a.digest = b.digest ↔ a.content = b.content := by
  rcases a with ⟨_, ea, _, ⟨_⟩⟩
  rcases b with ⟨_, eb, _, ⟨_⟩⟩
  constructor
  · intro h
    obtain ⟨hexpression, h⟩ := Expression.digest_append_inj h
    simp_all [content]
  · intro h
    simp_all [content, digest]

end Digest

section Lookups

variable {α β : Type}

/-- The entry of a constraint in a table that compares hashes before contents. -/
def OrderedMap.hashedFind? [Scalar α] (hash : List (Word α) → UInt64)
    (m : OrderedMap (Constraint α) β) (c : Constraint α) : Option (Constraint α × β) :=
  m.entries.find? (fun e => hash e.1.digest == hash c.digest && e.1 == c)

/-- The element that compares as equal, sought from the least element up and given up
at the first greater one. -/
def seek [Ord β] (b : β) : List β → Option β
  | [] => none
  | a :: rest =>
      match compare b a with
      | .lt => none
      | .eq => some a
      | .gt => seek b rest

theorem OrderedMap.hashedFind?_eq [Scalar α] (hash : List (Word α) → UInt64)
    (m : OrderedMap (Constraint α) β) (c : Constraint α) : m.hashedFind? hash c = m.find? c := by
  unfold hashedFind? find?
  congr 1
  funext e
  cases he : e.1 == c with
  | false => simp
  | true => simp [Constraint.digest_eq_iff.mpr (of_decide_eq_true he)]

section Ascending

variable [Ord β]

theorem mem_of_mem_keepLast {l : List β} {b : β} (h : b ∈ keepLast l) : b ∈ l := by
  induction l using keepLast.induct with
  | case1 a a' rest he ih =>
      rw [keepLast, if_pos he] at h
      exact List.mem_cons_of_mem _ (ih h)
  | case2 a a' rest he ih =>
      rw [keepLast, if_neg he] at h
      rcases List.mem_cons.mp h with rfl | h
      · exact List.mem_cons_self ..
      · exact List.mem_cons_of_mem _ (ih h)
  | case3 l hl =>
      rwa [keepLast] at h
      exact hl

theorem mem_of_mem_sortedSet {l : List β} {b : β} (h : b ∈ sortedSet l) : b ∈ l :=
  (List.mergeSort_perm l _).subset (mem_of_mem_keepLast h)

variable [TransOrd β]

/-- What is left of an ascending list ascends strictly and still has one of each. -/
theorem keepLast_spec {l : List β} (h : l.Pairwise (fun a b => (compare a b).isLE = true)) :
    (keepLast l).Pairwise (fun a b => compare a b = .lt) ∧
      ∀ a ∈ l, ∃ b ∈ keepLast l, compare a b = .eq := by
  induction l using keepLast.induct with
  | case1 a a' rest he ih =>
      obtain ⟨hascending, hall⟩ := ih (List.pairwise_cons.mp h).2
      rw [keepLast, if_pos he]
      refine ⟨hascending, fun b hb => ?_⟩
      rcases List.mem_cons.mp hb with rfl | hb
      · obtain ⟨d, hd, hcompare⟩ := hall a' (List.mem_cons_self ..)
        exact ⟨d, hd, TransCmp.eq_trans he hcompare⟩
      · exact hall b hb
  | case2 a a' rest hne ih =>
      obtain ⟨ha, hrest⟩ := List.pairwise_cons.mp h
      obtain ⟨hascending, hall⟩ := ih hrest
      have hnext : compare a a' = .lt :=
        (Ordering.isLE_iff_eq_lt_or_eq_eq.mp (ha a' (List.mem_cons_self ..))).resolve_right hne
      rw [keepLast, if_neg hne]
      refine ⟨List.pairwise_cons.mpr ⟨fun b hb => ?_, hascending⟩, fun b hb => ?_⟩
      · rcases List.mem_cons.mp (mem_of_mem_keepLast hb) with rfl | hb
        · exact hnext
        · exact TransCmp.lt_of_lt_of_isLE hnext ((List.pairwise_cons.mp hrest).1 b hb)
      · rcases List.mem_cons.mp hb with rfl | hb
        · exact ⟨b, List.mem_cons_self .., ReflOrd.compare_self⟩
        · obtain ⟨d, hd, hcompare⟩ := hall b hb
          exact ⟨d, List.mem_cons_of_mem _ hd, hcompare⟩
  | case3 l hl =>
      rw [keepLast]
      · refine ⟨?_, fun a ha => ⟨a, ha, ReflOrd.compare_self⟩⟩
        match l, hl with
        | [], _ => exact .nil
        | [a], _ => exact List.pairwise_singleton _ _
        | a :: a' :: rest, hl => exact absurd rfl (hl a a' rest)
      · exact hl

theorem pairwise_sorted (l : List β) :
    (sorted l).Pairwise (fun a b => (compare a b).isLE = true) :=
  List.pairwise_mergeSort (fun _ _ _ => TransCmp.isLE_trans)
    (fun a b => by
      rw [OrientedOrd.eq_swap (a := b)]
      cases compare a b <;> rfl) l

theorem sortedSet_ascending (l : List β) :
    (sortedSet l).Pairwise (fun a b => compare a b = .lt) :=
  (keepLast_spec (pairwise_sorted l)).1

theorem exists_mem_sortedSet {l : List β} {a : β} (h : a ∈ l) :
    ∃ b ∈ sortedSet l, compare a b = .eq :=
  (keepLast_spec (pairwise_sorted l)).2 a ((List.mergeSort_perm l _).symm.subset h)

/-- In a strictly ascending list nothing that compares as equal stands behind a greater
element. -/
theorem seek_eq_find? {l : List β} (h : l.Pairwise (fun a b => compare a b = .lt)) (b : β) :
    seek b l = l.find? (fun a => compare a b == .eq) := by
  induction l with
  | nil => rfl
  | cons a rest ih =>
      obtain ⟨ha, hrest⟩ := List.pairwise_cons.mp h
      rw [seek, List.find?_cons, OrientedOrd.eq_swap (a := b)]
      cases hab : compare a b with
      | lt => simpa using ih hrest
      | eq => simp
      | gt =>
          refine (List.find?_eq_none.mpr (fun d hd => ?_)).symm
          have hbd : compare b d = .lt := TransCmp.lt_trans (OrientedCmp.lt_of_gt hab) (ha d hd)
          simp [OrientedCmp.gt_of_lt hbd]

end Ascending

section Contents

variable [Scalar α]

instance : EquivBEq (Constraint α) where
  rfl := decide_eq_true rfl
  symm h := decide_eq_true (of_decide_eq_true h).symm
  trans h h' := decide_eq_true ((of_decide_eq_true h).trans (of_decide_eq_true h'))

instance [Hashable α] : LawfulHashable (Constraint α) where
  hash_eq _ _ h :=
    congrArg (fun words : List (Word α) => hash words)
      (Constraint.digest_eq_iff.mpr (of_decide_eq_true h))

theorem mem_contents_iff {l : List (Constraint α)} {c : Constraint α} :
    c.content ∈ l.map Constraint.content ↔ l.contains c = true := by
  rw [List.contains_iff_exists_mem_beq, List.mem_map]
  refine exists_congr fun d => and_congr_right fun _ => ?_
  rw [eq_comm]
  exact decide_eq_true_iff.symm

/-- A list in which no content stands twice has as many elements as it has contents. -/
theorem length_eq_contents {l l' : List (Constraint α)}
    (h : l.Pairwise (fun a b => (a == b) = false)) (hl : ∀ c, l.contains c = l'.contains c) :
    l.length = (l'.map Constraint.content).dedup.length := by
  have hnodup : (l.map Constraint.content).Nodup :=
    List.pairwise_map.mpr (h.imp (fun hab he => by simp [BEq.beq, he] at hab))
  rw [← List.length_map Constraint.content]
  refine List.Perm.length_eq ((List.perm_ext_iff_of_nodup hnodup (List.nodup_dedup _)).mpr ?_)
  rintro ⟨e, r, w⟩
  have hcontent : (e, r, w) = (⟨"", e, r, w⟩ : Constraint α).content := rfl
  rw [List.mem_dedup, hcontent, mem_contents_iff, mem_contents_iff, hl]

theorem countDistinct_eq [Hashable α] (l : List (Constraint α)) :
    countDistinct l = (l.map Constraint.content).dedup.length := by
  rw [countDistinct, ← HashSet.length_toList]
  refine length_eq_contents HashSet.distinct_toList (fun c => ?_)
  rw [HashSet.contains_toList, HashSet.contains_ofList]

variable [TransCmp (Scalar.rank : α → α → Ordering)] [LawfulEqCmp (Scalar.rank : α → α → Ordering)]

theorem contains_sortedSet (l : List (Constraint α)) (c : Constraint α) :
    (sortedSet l).contains c = l.contains c := by
  rw [Bool.eq_iff_iff, List.contains_iff_exists_mem_beq, List.contains_iff_exists_mem_beq]
  constructor
  · rintro ⟨d, hd, hc⟩
    exact ⟨d, mem_of_mem_sortedSet hd, hc⟩
  · rintro ⟨d, hd, hc⟩
    obtain ⟨e, he, hde⟩ := exists_mem_sortedSet hd
    exact ⟨e, he, BEq.trans hc (Constraint.beq_iff_compare.mpr hde)⟩

theorem length_sortedSet (l : List (Constraint α)) :
    (sortedSet l).length = (l.map Constraint.content).dedup.length := by
  refine length_eq_contents ((sortedSet_ascending l).imp (fun hab => ?_)) (contains_sortedSet l)
  rw [Bool.eq_false_iff, ne_eq, Constraint.beq_iff_compare, hab]
  decide

theorem seek_sortedSet (l : List (Constraint α)) (c : Constraint α) :
    seek c (sortedSet l) = (sortedSet l).find? (fun d => d == c) := by
  rw [seek_eq_find? (sortedSet_ascending l)]
  congr 1
  funext d
  rw [Bool.eq_iff_iff, Constraint.beq_iff_compare, beq_iff_eq]

end Contents

end Lookups

section Laws

/-- Two terms agree bit by bit. -/
def Term.Same (a b : Term Binary64) : Prop :=
  a.unknown = b.unknown ∧ a.coefficient.bits = b.coefficient.bits ∧ a.isConstant = b.isConstant

/-- Two expressions have the same constant and, place by place, the same terms. -/
def Expression.Same (a b : Expression Binary64) : Prop :=
  a.constant.bits = b.constant.bits ∧ a.terms.length = b.terms.length ∧
    ∀ (i : Nat) (ha : i < a.terms.length) (hb : i < b.terms.length),
      (a.terms[i]).Same (b.terms[i])

/-- Two constraints agree in everything but their names. -/
def Constraint.Same (a b : Constraint Binary64) : Prop :=
  a.relation = b.relation ∧ a.strength.value.bits = b.strength.value.bits ∧
    a.expression.Same b.expression

theorem Binary64.bits_inj {x y : Binary64} : x.bits = y.bits ↔ x = y := by
  cases x
  cases y
  simp

theorem Term.same_iff {a b : Term Binary64} : a.Same b ↔ a = b := by
  cases a
  cases b
  simp [Same, Binary64.bits_inj]

theorem Expression.same_iff {a b : Expression Binary64} : a.Same b ↔ a = b := by
  simp only [Same, Term.same_iff, Binary64.bits_inj, ← List.ext_getElem_iff]
  cases a
  cases b
  simp [and_comm]

theorem Constraint.same_iff {a b : Constraint Binary64} : a.Same b ↔ a.content = b.content := by
  rcases a with ⟨_, _, _, ⟨_⟩⟩
  rcases b with ⟨_, _, _, ⟨_⟩⟩
  simp only [Same, content, Expression.same_iff, Binary64.bits_inj, Prod.mk.injEq,
    Strength.mk.injEq]
  tauto

/-- A kind of thing is compared by a total order that says which things are the same,
and so do its equality and its digest. -/
structure Identity (β : Type) [Ord β] [BEq β] (same : β → β → Prop)
    (digest : β → List (Word Binary64)) : Prop where
  /-- The other way round, the comparison says the opposite. -/
  swap : ∀ a b : β, compare b a = (compare a b).swap
  /-- What is at most something is at most what that is at most. -/
  trans : ∀ a b c : β,
    (compare a b).isLE = true → (compare b c).isLE = true → (compare a c).isLE = true
  /-- Below goes on below. -/
  trans_lt : ∀ a b c : β, compare a b = .lt → compare b c = .lt → compare a c = .lt
  /-- Of two things one is at most the other. -/
  total : ∀ a b : β, (compare a b).isLE = true ∨ (compare b a).isLE = true
  /-- Equality is comparing as equal. -/
  beq_iff : ∀ a b : β, (a == b) = true ↔ compare a b = .eq
  /-- Comparing as equal is being the same. -/
  eq_iff : ∀ a b : β, compare a b = .eq ↔ same a b
  /-- Equal things are hashed from the same words, and no others are. -/
  digest_iff : ∀ a b : β, (a == b) = true ↔ digest a = digest b

/-- Collections of constraints find by content what they hold. -/
structure Lookups : Prop where
  /-- A table of hashes finds the entry of the same content, whatever is hashed how. -/
  table : ∀ (γ : Type) (hash : List (Word Binary64) → UInt64)
    (m : OrderedMap (Constraint Binary64) γ) (c : Constraint Binary64),
    m.hashedFind? hash c = m.entries.find? (fun e => decide (e.1.content = c.content))
  /-- A hash set holds the contents that it was made of. -/
  hashSet : ∀ (l : List (Constraint Binary64)) (c : Constraint Binary64),
    (HashSet.ofList l).contains c = true ↔ c.content ∈ l.map Constraint.content
  /-- An ordered set holds the contents that it was made of. -/
  orderedSet : ∀ (l : List (Constraint Binary64)) (c : Constraint Binary64),
    (∃ d, seek c (sortedSet l) = some d ∧ d ∈ l ∧ d.content = c.content) ↔
      c.content ∈ l.map Constraint.content
  /-- Both have one element of each content. -/
  size : ∀ l : List (Constraint Binary64),
    countDistinct l = (l.map Constraint.content).dedup.length ∧
      (sortedSet l).length = (l.map Constraint.content).dedup.length

theorem identity_of_laws {β : Type} [Ord β] [BEq β] [TransOrd β] {same : β → β → Prop}
    {digest : β → List (Word Binary64)} (hbeq : ∀ a b : β, (a == b) = true ↔ compare a b = .eq)
    (hsame : ∀ a b : β, compare a b = .eq ↔ same a b)
    (hdigest : ∀ a b : β, same a b ↔ digest a = digest b) : Identity β same digest where
  swap _ _ := OrientedOrd.eq_swap
  trans _ _ _ := TransCmp.isLE_trans
  trans_lt _ _ _ := TransCmp.lt_trans
  total a b := by
    rw [OrientedOrd.eq_swap (a := b)]
    cases compare a b <;> simp
  beq_iff := hbeq
  eq_iff := hsame
  digest_iff a b := (hbeq a b).trans ((hsame a b).trans (hdigest a b))

theorem lookups : Lookups where
  table _ hash m c := m.hashedFind?_eq hash c
  hashSet l c := by
    rw [HashSet.contains_ofList, mem_contents_iff]
  orderedSet l c := by
    rw [mem_contents_iff, ← contains_sortedSet, List.contains_iff_exists_mem_beq, seek_sortedSet]
    constructor
    · rintro ⟨d, hd, -, hc⟩
      exact ⟨d, List.mem_of_find?_eq_some hd, decide_eq_true hc.symm⟩
    · rintro ⟨d, hd, hc⟩
      have hfound : ((sortedSet l).find? (fun d => d == c)).isSome = true :=
        List.find?_isSome.mpr ⟨d, hd, BEq.symm hc⟩
      obtain ⟨e, he⟩ := Option.isSome_iff_exists.mp hfound
      have hmem := mem_of_mem_sortedSet (List.mem_of_find?_eq_some he)
      have hec : (e == c) = true := List.find?_some (p := fun d => d == c) he
      exact ⟨e, he, hmem, of_decide_eq_true hec⟩
  size l := ⟨countDistinct_eq l, length_sortedSet l⟩

/-- Terms, expressions and constraints are totally ordered by their contents, names
left out, and equality and hashing follow that order, whatever numbers they are made of.
So a constraint is found by its content. -/
theorem order_identifies :
    Identity (Term Binary64) Term.Same Term.digest ∧
      Identity (Expression Binary64) Expression.Same Expression.digest ∧
      Identity (Constraint Binary64) Constraint.Same Constraint.digest ∧ Lookups := by
  refine ⟨identity_of_laws ?_ ?_ ?_, identity_of_laws ?_ ?_ ?_, identity_of_laws ?_ ?_ ?_, lookups⟩
  · exact fun a b => beq_iff_eq.trans Std.compare_eq_iff_eq.symm
  · exact fun a b => Std.compare_eq_iff_eq.trans Term.same_iff.symm
  · exact fun a b => Term.same_iff.trans Term.digest_injective.eq_iff.symm
  · exact fun a b => beq_iff_eq.trans Std.compare_eq_iff_eq.symm
  · exact fun a b => Std.compare_eq_iff_eq.trans Expression.same_iff.symm
  · exact fun a b => Expression.same_iff.trans Expression.digest_injective.eq_iff.symm
  · exact fun a b => Constraint.beq_iff_compare
  · exact fun a b => Constraint.compare_eq_iff.trans Constraint.same_iff.symm
  · exact fun a b => Constraint.same_iff.trans Constraint.digest_eq_iff.symm

end Laws

end Tether
