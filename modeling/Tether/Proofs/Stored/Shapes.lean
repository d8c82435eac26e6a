import Tether.Proofs.Json.Reading
import Tether.Stored.Shape
import Mathlib.Data.List.Nodup

/-!
# Shapes read back

A type is well formed if the stored form of each of its values is.  Text is no
obstacle then: what is written is read as the stored form, and the question is only
whether the value is restored from it.

Texts, whole numbers and lists are restored.  A record gives back the stored form of
each of its fields, also when some of its members are left out.  A choice gives back its
name and what it carries.
-/

namespace Tether

/-- The value without the members of its object that have one of these names. -/
def Json.without (out : List String) : Json → Json
  | .object members => .object (members.filter (fun m => !m.1.toString?.any out.contains))
  | j => j

namespace Stored

section Texts

/-- A value is restored from its stored form. -/
def Restores {β : Type} [Stored β] (x : β) : Prop :=
  decode (encode x) = some x

/-- The text of a value is read as that value, and the value that was read has the
same text. -/
structure Returns {β : Type} [Stored β] (x : β) : Prop where
  value : read? (write x) = some x
  text : (read? (write x) : Option β).map write = some (write x)

/-- Types whose values have formed stored forms. -/
class WellFormed (β : Type) [Stored β] : Prop where
  formed : ∀ x : β, (encode x).Formed

variable {β : Type} [Stored β]

/-- From the text of a stored form a value is read as from the stored form. -/
theorem read?_text {j : Json} (h : j.Formed) : (read? j.text : Option β) = decode j := by
  unfold read?
  rw [Json.read?_text h]
  rfl

theorem returns_iff [WellFormed β] {x : β} : Returns x ↔ Restores x := by
  have hread : (read? (write x) : Option β) = decode (encode x) := read?_text (WellFormed.formed x)
  constructor
  · intro h
    exact hread.symm.trans h.value
  · intro h
    have hvalue := hread.trans h
    exact ⟨hvalue, by rw [hvalue]; rfl⟩

end Texts

section Simple

instance : WellFormed Bool where
  formed _ := trivial

instance : WellFormed String where
  formed s := ⟨s, rfl⟩

instance : WellFormed UInt64 where
  formed n := Decimal.Numeral.formed_ofNat n.toNat

instance : WellFormed UInt32 where
  formed n := Decimal.Numeral.formed_ofNat n.toNat

instance : WellFormed Binary64 where
  formed x := by
    change Json.Formed (match Decimal.Style.compact.numeral? x with
      | some n => .number n
      | none => .null)
    cases h : Decimal.Style.compact.numeral? x with
    | none => trivial
    | some n => exact Decimal.Style.formed_of_numeral? h

theorem restores_bool (b : Bool) : Restores b :=
  rfl

theorem restores_string (s : String) : Restores s :=
  Quoted.toString?_ofString s

theorem decodeNat_encodeNat {n bound : Nat} (h : n ≤ bound) :
    decodeNat bound (encodeNat n) = some n :=
  Decimal.Numeral.toNat?_ofNat h

theorem restores_uint64 (n : UInt64) : Restores n := by
  have hn : n.toNat ≤ UInt64.size - 1 := Nat.le_sub_one_of_lt n.toNat_lt
  change (decodeNat (UInt64.size - 1) (encodeNat n.toNat)).map UInt64.ofNat = some n
  rw [decodeNat_encodeNat hn]
  exact congrArg some n.ofNat_toNat

theorem restores_uint32 (n : UInt32) : Restores n := by
  have hn : n.toNat ≤ UInt32.size - 1 := Nat.le_sub_one_of_lt n.toNat_lt
  change (decodeNat (UInt32.size - 1) (encodeNat n.toNat)).map UInt32.ofNat = some n
  rw [decodeNat_encodeNat hn]
  exact congrArg some n.ofNat_toNat

end Simple

section Lists

variable {β γ : Type} [Stored β]

instance [WellFormed β] : WellFormed (List β) where
  formed xs := by
    change Json.ItemsFormed (xs.map encode)
    rw [Json.itemsFormed_iff]
    intro j hj
    obtain ⟨x, -, rfl⟩ := List.mem_map.mp hj
    exact WellFormed.formed x

/-- Items are read one by one, whatever each of them was written as. -/
theorem decodeItems_mapIdx {xs : List γ} {f : Nat → γ → Json} {g : Nat → γ → β}
    (h : ∀ i, ∀ x ∈ xs, decode (f i x) = some (g i x)) :
    decodeItems (xs.mapIdx f) = some (xs.mapIdx g) := by
  induction xs generalizing f g with
  | nil => rfl
  | cons x rest ih =>
      have hrest := ih (fun i y hy => h (i + 1) y (List.mem_cons_of_mem x hy))
      simp [decodeItems, h 0 x List.mem_cons_self, hrest]

theorem restores_list {xs : List β} (h : ∀ x ∈ xs, Restores x) : Restores xs := by
  have hitems : decodeItems (xs.mapIdx fun _ => encode) = some (xs.mapIdx fun _ x => x) :=
    decodeItems_mapIdx fun _ => h
  have hwritten : xs.mapIdx (fun _ => encode) = xs.map encode :=
    List.ext_getElem (by simp) (by simp)
  have hread : xs.mapIdx (fun _ x => x) = xs := List.ext_getElem (by simp) (by simp)
  rwa [hwritten, hread] at hitems

end Lists

section Records

variable {names out : List String} {fields : List (String × Json)}

theorem formed_record (h : ∀ f ∈ fields, f.2.Formed) : (record fields).Formed := by
  change Json.MembersFormed _
  rw [Json.membersFormed_iff]
  intro m hm
  obtain ⟨f, hf, rfl⟩ := List.mem_map.mp hm
  exact ⟨⟨f.1, rfl⟩, h f hf⟩

/-- A record without some of its fields is the record of the others. -/
theorem without_record (out : List String) (fields : List (String × Json)) :
    (record fields).without out = record (fields.filter (fun f => !out.contains f.1)) := by
  simp [record, Json.without, List.filter_map, Function.comp_def, Quoted.toString?_ofString]

theorem formed_without {j : Json} (h : j.Formed) : (j.without out).Formed := by
  cases j with
  | object members =>
      change Json.MembersFormed _
      rw [Json.membersFormed_iff]
      intro m hm
      exact Json.membersFormed_iff.mp h m (List.mem_of_mem_filter hm)
  | _ => exact h

namespace Fields

/-- The fields of a record are those it was written with. -/
theorem ofJson?_record (hnames : ∀ f ∈ fields, f.1 ∈ names)
    (hdistinct : (fields.map Prod.fst).Nodup) :
    ofJson? names (record fields) = some ⟨fields⟩ := by
  have hmembers : ofMembers? names (fields.map (fun f => (.ofString f.1, f.2))) = some fields := by
    induction fields with
    | nil => rfl
    | cons f rest ih =>
        obtain ⟨hnew, hrest⟩ := List.nodup_cons.mp hdistinct
        have hothers := ih (fun g hg => hnames g (List.mem_cons_of_mem f hg)) hrest
        have hname : f.1 ∈ names := hnames f List.mem_cons_self
        have honce : rest.any (fun g => g.1 == f.1) = false := by
          rw [List.any_eq_false]
          intro g hg hsame
          exact hnew (List.mem_map.mpr ⟨g, hg, by simpa using hsame⟩)
        simp [ofMembers?, Quoted.toString?_ofString, hothers, hname, honce]
  change (ofMembers? names _).map Fields.mk = _
  rw [hmembers]
  rfl

variable {β : Type} {f : Fields → Option β}

/-- What is made of the fields of a record. -/
theorem bind_record (hnames : ∀ f ∈ fields, f.1 ∈ names)
    (hdistinct : (fields.map Prod.fst).Nodup) :
    (ofJson? names (record fields)).bind f = f ⟨fields⟩ := by
  rw [ofJson?_record hnames hdistinct]
  rfl

/-- What is made of the fields of a record that lacks some of them. -/
theorem bind_without (hnames : ∀ f ∈ fields, f.1 ∈ names)
    (hdistinct : (fields.map Prod.fst).Nodup) (out : List String) :
    (ofJson? names ((record fields).without out)).bind f =
      f ⟨fields.filter (fun f => !out.contains f.1)⟩ := by
  rw [without_record]
  refine bind_record (fun f hf => hnames f (List.mem_of_mem_filter hf)) ?_
  exact hdistinct.sublist (List.filter_sublist.map Prod.fst)

/-- A field of another name is passed over. -/
@[simp]
theorem lookup_cons_of_ne {name key : String} (h : name ≠ key) (j : Json)
    (fields : List (String × Json)) :
    ((key, j) :: fields).lookup name = fields.lookup name := by
  rw [List.lookup_cons, beq_false_of_ne h]

end Fields

end Records

section Choices

theorem formed_choice {c : Choice} (h : ∀ j, c.carried = some j → j.Formed) : c.toJson.Formed := by
  obtain ⟨name, carried⟩ := c
  cases carried with
  | none => exact ⟨name, rfl⟩
  | some j => exact formed_record (by simpa using h j rfl)

theorem Choice.ofJson?_toJson (c : Choice) : Choice.ofJson? c.toJson = some c := by
  obtain ⟨name, carried⟩ := c
  cases carried <;> simp [toJson, record, ofJson?, Quoted.toString?_ofString]

/-- What is made of a choice. -/
theorem Choice.bind_toJson {β : Type} {f : Choice → Option β} (c : Choice) :
    (Choice.ofJson? c.toJson).bind f = f c := by
  rw [ofJson?_toJson]
  rfl

variable {β : Type} {nameOf : β → String} {all : List β}

theorem formed_encodeName (x : β) : (encodeName nameOf x).Formed :=
  formed_choice (by simp)

/-- A value that carries nothing is restored if it is the first of its name. -/
theorem decodeName_encodeName {x : β}
    (h : all.find? (fun y => nameOf y == nameOf x) = some x) :
    decodeName nameOf all (encodeName nameOf x) = some x := by
  simp [decodeName, encodeName, Choice.ofJson?_toJson, Choice.isBare, h]

end Choices

end Stored
end Tether
