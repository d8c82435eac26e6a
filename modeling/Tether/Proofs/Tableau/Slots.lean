import Mathlib.Data.List.Nodup
import Mathlib.Data.List.Perm.Basic
import Tether.Proofs.Row.Symbols
import Tether.Simplex.Tableau

/-!
# What the slots of a tableau hold

Two views say all that a tableau is read for: the kind and the row at every
number.  Each operation is described by what it does to the two views, and
the list of basic symbols by its members, which ascend.

A symbol is known to a tableau if its slot exists and is of its kind, and
parametric if it is known and has no row.
-/

namespace Tether
namespace Simplex
namespace Tableau

variable {α : Type}

section Kinds

/-- What the symbol of a number stands for. -/
def kindAt? (t : Tableau α) (id : Nat) : Option SymbolKind :=
  t.slots[id]?.map (·.kind)

/-- The symbol was made by this tableau. -/
def Knows (t : Tableau α) (x : Symbol) : Prop :=
  t.kindAt? x.id = some x.kind

/-- The symbol was made by this tableau and has no row. -/
def Parametric (t : Tableau α) (x : Symbol) : Prop :=
  t.Knows x ∧ t.row? x = none

theorem Knows.id_lt {t : Tableau α} {x : Symbol} (h : t.Knows x) :
    x.id < t.symbolCount := by
  obtain ⟨slot, hs, _⟩ := Option.map_eq_some_iff.mp h
  exact (Array.getElem?_eq_some_iff.mp hs).1

theorem Knows.eq_of_id_eq {t : Tableau α} {x y : Symbol} (hx : t.Knows x) (hy : t.Knows y)
    (h : x.id = y.id) : x = y := by
  unfold Knows at hx hy
  rw [h, hy] at hx
  cases x
  cases y
  simp_all

theorem lt_of_rowAt? {t : Tableau α} {id : Nat} {r : Row α} (h : t.rowAt? id = some r) :
    id < t.symbolCount := by
  obtain ⟨slot, hs, _⟩ := Option.bind_eq_some_iff.mp h
  exact (Array.getElem?_eq_some_iff.mp hs).1

/-- Every row belongs to a known symbol. -/
theorem exists_knows_of_rowAt? {t : Tableau α} {id : Nat} {r : Row α}
    (h : t.rowAt? id = some r) : ∃ x : Symbol, x.id = id ∧ t.Knows x := by
  obtain ⟨slot, hs, _⟩ := Option.bind_eq_some_iff.mp h
  exact ⟨⟨id, slot.kind⟩, rfl, by simp [Knows, kindAt?, hs]⟩

theorem kindAt?_save (t : Tableau α) (id id' : Nat) :
    (t.save id).kindAt? id' = t.kindAt? id' := by
  simp [kindAt?, slots_save]

theorem rowAt?_save (t : Tableau α) (id id' : Nat) :
    (t.save id).rowAt? id' = t.rowAt? id' := by
  simp [rowAt?, slots_save]

theorem basicCount_save (t : Tableau α) (id : Nat) : (t.save id).basicCount = t.basicCount := by
  unfold save
  split
  · rfl
  · split <;> rfl

theorem faulted_save (t : Tableau α) (id : Nat) : (t.save id).faulted = t.faulted := by
  unfold save
  split
  · rfl
  · split <;> rfl

@[simp] theorem symbolCount_save (t : Tableau α) (id : Nat) :
    (t.save id).symbolCount = t.symbolCount := by
  simp [symbolCount, slots_save]

theorem isBasic_save (t : Tableau α) (id : Nat) (x : Symbol) :
    (t.save id).isBasic x = t.isBasic x := by
  simp only [isBasic, row?, rowAt?_save]

/-- An insertion marks the tableau exactly if there is no slot. -/
theorem faulted_insert (t : Tableau α) (s : Symbol) (r : Row α) :
    (t.insert s r).faulted = (t.faulted || !decide (s.id < t.symbolCount)) := by
  simp only [insert, faulted_save, symbolCount_save]

/-- Dropping a row marks the tableau exactly if the count is zero. -/
theorem faulted_erase (t : Tableau α) (s : Symbol) :
    (t.erase s).faulted = (t.faulted || (t.isBasic s && t.basicCount == 0)) := by
  simp only [erase, faulted_save, isBasic_save, basicCount_save]

theorem faulted_modify (t : Tableau α) (s : Symbol) (f : Row α → Row α) :
    (t.modify s f).faulted = t.faulted := by
  simp only [modify, faulted_save]

@[simp] theorem kindAt?_modify (t : Tableau α) (s : Symbol) (f : Row α → Row α) (id : Nat) :
    (t.modify s f).kindAt? id = t.kindAt? id := by
  simp only [modify, kindAt?, slots_save, Array.getElem?_modify]
  split <;> simp [Function.comp_def]

@[simp] theorem kindAt?_insert (t : Tableau α) (s : Symbol) (r : Row α) (id : Nat) :
    (t.insert s r).kindAt? id = t.kindAt? id := by
  simp only [insert, kindAt?, slots_save, Array.getElem?_modify]
  split <;> simp [Function.comp_def]

@[simp] theorem kindAt?_erase (t : Tableau α) (s : Symbol) (id : Nat) :
    (t.erase s).kindAt? id = t.kindAt? id := by
  simp only [erase, kindAt?, slots_save, Array.getElem?_modify]
  split <;> simp [Function.comp_def]

@[simp] theorem symbolCount_modify (t : Tableau α) (s : Symbol) (f : Row α → Row α) :
    (t.modify s f).symbolCount = t.symbolCount := by
  simp [modify, symbolCount, slots_save]

@[simp] theorem symbolCount_insert (t : Tableau α) (s : Symbol) (r : Row α) :
    (t.insert s r).symbolCount = t.symbolCount := by
  simp [insert, symbolCount, slots_save]

@[simp] theorem symbolCount_erase (t : Tableau α) (s : Symbol) :
    (t.erase s).symbolCount = t.symbolCount := by
  simp [erase, symbolCount, slots_save]

@[simp] theorem symbolCount_newSymbol (t : Tableau α) (kind : SymbolKind) :
    (t.newSymbol kind).2.symbolCount = t.symbolCount + 1 := by
  simp [newSymbol, symbolCount]

theorem kindAt?_newSymbol (t : Tableau α) (kind : SymbolKind) (id : Nat) :
    (t.newSymbol kind).2.kindAt? id =
      if id = t.symbolCount then some kind else t.kindAt? id := by
  simp only [newSymbol, kindAt?, symbolCount, Array.getElem?_push]
  by_cases h : id = t.slots.size <;> simp [h]

@[simp] theorem rowAt?_newSymbol (t : Tableau α) (kind : SymbolKind) (id : Nat) :
    (t.newSymbol kind).2.rowAt? id = t.rowAt? id := by
  simp only [newSymbol, rowAt?, Array.getElem?_push]
  split
  · rename_i h
    simp [h]
  · rfl

theorem rowAt?_symbolCount (t : Tableau α) : t.rowAt? t.symbolCount = none := by
  simp [rowAt?, symbolCount]

theorem Knows.newSymbol {t : Tableau α} {x : Symbol} (h : t.Knows x) (kind : SymbolKind) :
    (t.newSymbol kind).2.Knows x := by
  have := h.id_lt
  unfold Knows
  rw [kindAt?_newSymbol, if_neg (by omega)]
  exact h

theorem knows_newSymbol (t : Tableau α) (kind : SymbolKind) :
    (t.newSymbol kind).2.Knows (t.newSymbol kind).1 := by
  unfold Knows
  rw [kindAt?_newSymbol]
  exact if_pos rfl

theorem knows_newSymbol_iff {t : Tableau α} {kind : SymbolKind} {x : Symbol} :
    (t.newSymbol kind).2.Knows x ↔ t.Knows x ∨ x = (t.newSymbol kind).1 := by
  constructor
  · intro h
    by_cases hid : x.id = t.symbolCount
    · exact Or.inr (h.eq_of_id_eq (knows_newSymbol t kind) hid)
    · unfold Knows at h
      rw [kindAt?_newSymbol, if_neg hid] at h
      exact Or.inl h
  · rintro (h | rfl)
    · exact h.newSymbol kind
    · exact knows_newSymbol t kind

theorem knows_insert {t : Tableau α} {x y : Symbol} {r : Row α} :
    (t.insert x r).Knows y ↔ t.Knows y := by
  rw [Knows, Knows, kindAt?_insert]

theorem parametric_newSymbol (t : Tableau α) (kind : SymbolKind) :
    (t.newSymbol kind).2.Parametric (t.newSymbol kind).1 :=
  ⟨knows_newSymbol t kind, by
    rw [row?, rowAt?_newSymbol]
    exact rowAt?_symbolCount t⟩

theorem Parametric.newSymbol {t : Tableau α} {x : Symbol} (h : t.Parametric x)
    (kind : SymbolKind) : (t.newSymbol kind).2.Parametric x :=
  ⟨h.1.newSymbol kind, by rw [row?, rowAt?_newSymbol]; exact h.2⟩

end Kinds

section Basics

theorem mem_basics_iff {t : Tableau α} {x : Symbol} {r : Row α} :
    (x, r) ∈ t.basics ↔ t.Knows x ∧ t.row? x = some r := by
  simp only [basics, List.mem_filterMap, Option.map_eq_some_iff, Prod.exists,
    List.mem_zipIdx_iff_getElem?, Array.getElem?_toList, Knows, kindAt?, row?, rowAt?]
  constructor
  · rintro ⟨slot, id, hs, r', hr, he⟩
    cases he
    simp [hs, hr]
  · rintro ⟨⟨slot, hs, hk⟩, hr⟩
    refine ⟨slot, x.id, hs, r, ?_, ?_⟩
    · simpa [hs] using hr
    · rw [hk]

theorem mem_basics_insert {t : Tableau α} {x : Symbol} (hx : t.Knows x) {r : Row α}
    {b : Symbol × Row α} :
    b ∈ (t.insert x r).basics ↔ b = (x, r) ∨ b.1 ≠ x ∧ b ∈ t.basics := by
  obtain ⟨y, q⟩ := b
  rw [mem_basics_iff, mem_basics_iff, knows_insert, row?, rowAt?_insert, row?]
  constructor
  · rintro ⟨hk, hrow⟩
    by_cases hid : x.id = y.id
    · obtain rfl := hx.eq_of_id_eq hk hid
      rw [if_pos ⟨rfl, hx.id_lt⟩] at hrow
      exact Or.inl (congrArg (Prod.mk x) (Option.some.inj hrow.symm))
    · rw [if_neg (fun h => hid h.1)] at hrow
      exact Or.inr ⟨fun he => hid (congrArg Symbol.id he.symm), hk, hrow⟩
  · rintro (he | ⟨hne, hk, hrow⟩)
    · cases he
      exact ⟨hx, if_pos ⟨rfl, hx.id_lt⟩⟩
    · rw [if_neg (fun h => hne (hx.eq_of_id_eq hk h.1).symm)]
      exact ⟨hk, hrow⟩

/-- If every row is changed, then the basic symbols are the same. -/
theorem mem_basics_of_rows {t u : Tableau α} {f : Nat → Row α → Row α}
    (hk : ∀ id, u.kindAt? id = t.kindAt? id)
    (hr : ∀ id, u.rowAt? id = (t.rowAt? id).map (f id)) {b : Symbol × Row α} :
    b ∈ u.basics ↔ ∃ r, (b.1, r) ∈ t.basics ∧ b.2 = f b.1.id r := by
  obtain ⟨x, q⟩ := b
  simp only [mem_basics_iff, Knows, row?, hk, hr, Option.map_eq_some_iff]
  constructor
  · rintro ⟨hx, r, hrow, he⟩
    exact ⟨r, ⟨hx, hrow⟩, he.symm⟩
  · rintro ⟨r, ⟨hx, hrow⟩, he⟩
    exact ⟨hx, r, hrow, he.symm⟩

theorem pairwise_basics (t : Tableau α) :
    t.basics.Pairwise (fun a b => a.1.id < b.1.id) := by
  have h : t.slots.toList.zipIdx.Pairwise (fun a b => a.2 < b.2) := by
    have := List.pairwise_lt_range' (s := 0) (n := t.slots.toList.length)
    rw [← List.zipIdx_map_snd] at this
    exact List.pairwise_map.mp this
  refine List.pairwise_filterMap.mpr (h.imp ?_)
  intro a b hab c hc d hd
  obtain ⟨_, _, rfl⟩ := Option.map_eq_some_iff.mp hc
  obtain ⟨_, _, rfl⟩ := Option.map_eq_some_iff.mp hd
  exact hab

/-- Lists in ascending order are equal if they have the same members. -/
theorem eq_of_ascending {β : Type} {f : β → Nat} {l l' : List β}
    (hl : l.Pairwise (fun a b => f a < f b)) (hl' : l'.Pairwise (fun a b => f a < f b))
    (hm : ∀ b, b ∈ l ↔ b ∈ l') : l = l' := by
  have hne : ∀ {a b : β}, f a < f b → a ≠ b := by
    rintro a b hab rfl
    exact Nat.lt_irrefl _ hab
  have hn : l.Nodup := hl.imp hne
  have hn' : l'.Nodup := hl'.imp hne
  exact ((List.perm_ext_iff_of_nodup hn hn').mpr hm).eq_of_pairwise
    (fun a b _ _ hab hba => absurd hab (Nat.not_lt_of_gt hba)) hl hl'

theorem mem_mentioning_iff {t : Tableau α} {s x : Symbol} :
    x ∈ t.mentioning s ↔ t.Knows x ∧ ∃ r, t.row? x = some r ∧ s ∈ r.symbols := by
  simp only [mentioning, List.mem_map, List.mem_filter, Prod.exists, mem_basics_iff,
    Row.contains_iff]
  constructor
  · rintro ⟨y, r, ⟨⟨hk, hr⟩, hs⟩, rfl⟩
    exact ⟨hk, r, hr, hs⟩
  · rintro ⟨hk, r, hr, hs⟩
    exact ⟨x, r, ⟨⟨hk, hr⟩, hs⟩, rfl⟩

theorem mem_map_id_mentioning_iff {t : Tableau α} {s : Symbol} {id : Nat} :
    id ∈ (t.mentioning s).map (·.id) ↔ ∃ r, t.rowAt? id = some r ∧ s ∈ r.symbols := by
  simp only [List.mem_map, mem_mentioning_iff]
  constructor
  · rintro ⟨x, ⟨-, h⟩, rfl⟩
    exact h
  · rintro ⟨r, hr, hs⟩
    obtain ⟨x, rfl, hk⟩ := exists_knows_of_rowAt? hr
    exact ⟨x, ⟨hk, r, hr, hs⟩, rfl⟩

theorem nodup_map_id_mentioning (t : Tableau α) (s : Symbol) :
    ((t.mentioning s).map (·.id)).Nodup := by
  have h := (t.pairwise_basics.filter (fun b => b.2.contains s))
  unfold mentioning
  rw [List.map_map]
  exact List.pairwise_map.mpr (h.imp (fun hab => Nat.ne_of_lt hab))

end Basics

section Mentioning

/-- What changing a row keeps, changing the rows that mention a symbol keeps. -/
theorem modifyMentioning_induction {motive : Tableau α → Prop} {t : Tableau α} {s : Symbol}
    {f : Symbol → Row α → Row α} (start : motive t)
    (modify : ∀ u b, motive u → motive (u.modify b (f b))) :
    motive (t.modifyMentioning s f) :=
  List.foldlRecOn (t.mentioning s) _ start (fun u hu b _ => modify u b hu)

theorem rowAt?_foldl_modify (f : Row α → Row α) (l : List Symbol) (t : Tableau α)
    (hl : (l.map (·.id)).Nodup) (id : Nat) :
    (l.foldl (fun t b => t.modify b f) t).rowAt? id =
      if id ∈ l.map (·.id) then (t.rowAt? id).map f else t.rowAt? id := by
  induction l generalizing t with
  | nil => rfl
  | cons b rest ih =>
      obtain ⟨hb, hrest⟩ := List.nodup_cons.mp hl
      rw [List.foldl_cons, ih _ hrest, rowAt?_modify]
      by_cases hid : b.id = id
      · subst hid
        rw [if_neg hb, if_pos rfl, if_pos (by simp)]
      · have hmem : id ∈ (b :: rest).map (·.id) ↔ id ∈ rest.map (·.id) := by
          rw [List.map_cons, List.mem_cons, or_iff_right (fun he => hid he.symm)]
        rw [if_neg hid]
        simp only [hmem]

@[simp] theorem kindAt?_modifyMentioning (t : Tableau α) (s : Symbol)
    (f : Symbol → Row α → Row α) (id : Nat) :
    (t.modifyMentioning s f).kindAt? id = t.kindAt? id :=
  modifyMentioning_induction (motive := fun u => u.kindAt? id = t.kindAt? id) rfl
    (fun u b hu => (kindAt?_modify u b (f b) id).trans hu)

/-- The rows that mention a symbol are changed, and no others. -/
theorem rowAt?_modifyMentioning_if (t : Tableau α) (s : Symbol) (f : Row α → Row α) (id : Nat) :
    (t.modifyMentioning s (fun _ => f)).rowAt? id =
      (t.rowAt? id).map (fun r => if r.contains s then f r else r) := by
  rw [modifyMentioning, rowAt?_foldl_modify f _ t (nodup_map_id_mentioning t s)]
  simp only [mem_map_id_mentioning_iff]
  cases hr : t.rowAt? id with
  | none => simp
  | some r =>
      by_cases hs : s ∈ r.symbols
      · rw [if_pos ⟨r, rfl, hs⟩, Option.map_some, Option.map_some,
          if_pos (Row.contains_iff.mpr hs)]
      · rw [if_neg (by rintro ⟨r', h, hs'⟩; cases h; exact hs hs'), Option.map_some,
          if_neg (fun hc => hs (Row.contains_iff.mp hc))]

/-- A change that leaves alone the rows that do not mention a symbol is made
in every row. -/
theorem rowAt?_modifyMentioning (t : Tableau α) (s : Symbol) {f : Row α → Row α}
    (hf : ∀ r, s ∉ r.symbols → f r = r) (id : Nat) :
    (t.modifyMentioning s (fun _ => f)).rowAt? id = (t.rowAt? id).map f := by
  rw [rowAt?_modifyMentioning_if]
  congr 1
  funext r
  split
  · rfl
  · rename_i hc
    exact (hf r (fun hs => hc (Row.contains_iff.mpr hs))).symm

end Mentioning

end Tableau
end Simplex
end Tether
