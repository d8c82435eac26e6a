import Mathlib.Data.List.Nodup
import Tether.Simplex.Row

/-!
# The symbols of a row

Which symbols have a cell in a row, and what the operations on rows do to
them.  Nothing here uses a law of arithmetic.

A row is ordered if its cells ascend and no symbol has two of them.  Every
operation keeps that, and the cells of a result belong to symbols of the
operands.
-/

namespace Tether
namespace Simplex
namespace Row

variable {α : Type}

section Ordered

/-- The symbols that have a cell. -/
def symbols (r : Row α) : List Symbol :=
  r.cells.map (·.1)

/-- One cell comes before another: it has no higher number and belongs to
another symbol. -/
def Precedes (a b : Cell α) : Prop :=
  a.1.id ≤ b.1.id ∧ a.1 ≠ b.1

/-- The cells ascend, with one cell at most for every symbol. -/
def Ordered (r : Row α) : Prop :=
  r.cells.Pairwise Precedes

theorem mem_symbols_iff {r : Row α} {s : Symbol} :
    s ∈ r.symbols ↔ ∃ x, (s, x) ∈ r.cells := by
  simp [symbols]

theorem contains_iff {r : Row α} {s : Symbol} :
    r.contains s = true ↔ s ∈ r.symbols := by
  simp [contains, symbols]

theorem get?_eq_none_iff {r : Row α} {s : Symbol} :
    r.get? s = none ↔ s ∉ r.symbols := by
  simp only [get?, Option.map_eq_none_iff, List.find?_eq_none, mem_symbols_iff, beq_iff_eq]
  constructor
  · rintro h ⟨x, hx⟩
    exact h (s, x) hx rfl
  · rintro h ⟨t, x⟩ hc rfl
    exact h ⟨x, hc⟩

theorem mem_cells_of_get? {r : Row α} {s : Symbol} {x : α} (h : r.get? s = some x) :
    (s, x) ∈ r.cells := by
  obtain ⟨c, hc, rfl⟩ := Option.map_eq_some_iff.mp h
  have hs : c.1 = s := by simpa using List.find?_some hc
  subst hs
  exact List.mem_of_find?_eq_some hc

theorem Ordered.nodup_symbols {r : Row α} (h : r.Ordered) : r.symbols.Nodup :=
  List.pairwise_map.mpr (h.imp And.right)

theorem Ordered.eq_of_mem {r : Row α} (h : r.Ordered) {s : Symbol} {x y : α}
    (hx : (s, x) ∈ r.cells) (hy : (s, y) ∈ r.cells) : x = y := by
  have := List.inj_on_of_nodup_map h.nodup_symbols hx hy rfl
  exact (Prod.mk.inj this).2

theorem Ordered.get?_eq_some_iff {r : Row α} (h : r.Ordered) {s : Symbol} {x : α} :
    r.get? s = some x ↔ (s, x) ∈ r.cells := by
  constructor
  · exact mem_cells_of_get?
  · intro hx
    cases hg : r.get? s with
    | none => exact absurd (mem_symbols_iff.mpr ⟨x, hx⟩) (get?_eq_none_iff.mp hg)
    | some y => rw [h.eq_of_mem hx (mem_cells_of_get? hg)]

@[simp] theorem symbols_ofConstant (x : α) :
    (ofConstant x).symbols = [] := by
  rfl

@[simp] theorem ordered_ofConstant (x : α) :
    (ofConstant x).Ordered := by
  simp [Ordered, ofConstant]

theorem ordered_mapCells {l : List (Cell α)} (x : α) (f : α → α)
    (h : l.Pairwise Precedes) :
    (Row.mk x (l.map (fun c => (c.1, f c.2)))).Ordered := by
  exact List.pairwise_map.mpr h

end Ordered

section Erase

theorem ordered_erase {r : Row α} (h : r.Ordered) (s : Symbol) :
    (r.erase s).Ordered :=
  List.Pairwise.sublist List.eraseP_sublist h

theorem mem_of_mem_symbols_erase {r : Row α} {s y : Symbol}
    (h : y ∈ (r.erase s).symbols) : y ∈ r.symbols := by
  obtain ⟨x, hx⟩ := mem_symbols_iff.mp h
  exact mem_symbols_iff.mpr ⟨x, List.mem_of_mem_eraseP hx⟩

/-- Erasing leaves no cell of the symbol: there was one at most. -/
theorem Ordered.notMem_symbols_erase {r : Row α} (h : r.Ordered) (s : Symbol) :
    s ∉ (r.erase s).symbols := by
  obtain ⟨k, cells⟩ := r
  simp only [Ordered, symbols, erase] at h ⊢
  induction cells with
  | nil => simp
  | cons c rest ih =>
      obtain ⟨hc, hrest⟩ := List.pairwise_cons.mp h
      by_cases hs : c.1 = s
      · subst hs
        rw [List.eraseP_cons_of_pos (by simp)]
        intro hm
        obtain ⟨d, hd, he⟩ := List.mem_map.mp hm
        exact (hc d hd).2 he.symm
      · rw [List.eraseP_cons_of_neg (by simpa using hs), List.map_cons, List.mem_cons]
        rintro (he | hm)
        · exact hs he.symm
        · exact ih hrest hm

theorem erase_of_notMem {r : Row α} {s : Symbol} (h : s ∉ r.symbols) :
    r.erase s = r := by
  have hn : ∀ c ∈ r.cells, ¬ (c.1 == s) = true := by
    intro c hc he
    exact h (mem_symbols_iff.mpr ⟨c.2, by simpa [← beq_iff_eq.mp he] using hc⟩)
  simp [erase, List.eraseP_of_forall_not hn]

end Erase

section Arithmetic

variable [Scalar α]

theorem mem_of_mem_consCell {s : Symbol} {x : α} {l : List (Cell α)} {c : Cell α}
    (h : c ∈ consCell s x l) : (c.1 = s ∧ Scalar.nearZero c.2 = false) ∨ c ∈ l := by
  unfold consCell at h
  split at h
  · exact Or.inr h
  · rename_i hx
    rcases List.mem_cons.mp h with rfl | h
    · exact Or.inl ⟨rfl, Bool.eq_false_iff.mpr hx⟩
    · exact Or.inr h

/-- A cell that adding to a coefficient brings in is that coefficient's, and does not count
as zero. -/
theorem mem_of_mem_insertCell {s : Symbol} {x : α} {l : List (Cell α)} {c : Cell α}
    (h : c ∈ insertCell s x l) : (c.1 = s ∧ Scalar.nearZero c.2 = false) ∨ c ∈ l := by
  induction l with
  | nil => exact mem_of_mem_consCell h
  | cons d rest ih =>
      unfold insertCell at h
      split_ifs at h
      · exact mem_of_mem_consCell h
      · exact (mem_of_mem_consCell h).imp_right (List.mem_cons_of_mem d)
      · rcases List.mem_cons.mp h with rfl | h
        · exact Or.inr List.mem_cons_self
        · exact (ih h).imp_right (List.mem_cons_of_mem d)

theorem pairwise_consCell {s : Symbol} {l : List (Cell α)} (x : α)
    (hs : ∀ c ∈ l, s.id ≤ c.1.id ∧ s ≠ c.1) (hl : l.Pairwise Precedes) :
    (consCell s x l).Pairwise Precedes := by
  unfold consCell
  split
  · exact hl
  · exact List.pairwise_cons.mpr ⟨hs, hl⟩

theorem pairwise_insertCell {l : List (Cell α)} (s : Symbol) (x : α)
    (hl : l.Pairwise Precedes) : (insertCell s x l).Pairwise Precedes := by
  induction l with
  | nil => exact pairwise_consCell _ (by simp) List.Pairwise.nil
  | cons d rest ih =>
      obtain ⟨t, y⟩ := d
      obtain ⟨hd, hrest⟩ := List.pairwise_cons.mp hl
      unfold insertCell
      split_ifs with hlt heq
      · refine pairwise_consCell _ ?_ hl
        intro c hc
        have hle : t.id ≤ c.1.id := by
          rcases List.mem_cons.mp hc with rfl | hc
          · exact Nat.le_refl _
          · exact (hd c hc).1
        exact ⟨by omega, fun he => by rw [he] at hlt; omega⟩
      · subst heq
        exact pairwise_consCell _ hd hrest
      · refine List.pairwise_cons.mpr ⟨?_, ih hrest⟩
        intro c hc
        rcases mem_of_mem_insertCell hc with ⟨rfl, -⟩ | hc
        · exact ⟨Nat.le_of_not_lt hlt, fun he => heq he.symm⟩
        · exact hd c hc

theorem ordered_insert {r : Row α} (h : r.Ordered) (s : Symbol) (x : α) :
    (r.insert s x).Ordered :=
  pairwise_insertCell s x h

theorem mem_symbols_insert {r : Row α} {s y : Symbol} {x : α}
    (h : y ∈ (r.insert s x).symbols) : y = s ∨ y ∈ r.symbols := by
  obtain ⟨z, hz⟩ := mem_symbols_iff.mp h
  exact (mem_of_mem_insertCell hz).imp And.left (fun hz => mem_symbols_iff.mpr ⟨z, hz⟩)

/-- What adding to the constant and to coefficients keeps, adding a row keeps. -/
theorem addRow_induction {motive : Row α → Prop} {r other : Row α} {factor : α}
    (shift : motive (r.shift (other.constant * factor)))
    (insert : ∀ q s x, s ∈ other.symbols → motive q → motive (q.insert s x)) :
    motive (r.addRow other factor) :=
  List.foldlRecOn other.cells _ shift
    (fun q hq c hc => insert q c.1 _ (mem_symbols_iff.mpr ⟨c.2, hc⟩) hq)

theorem ordered_addRow {r : Row α} (h : r.Ordered) (other : Row α) (factor : α) :
    (r.addRow other factor).Ordered :=
  addRow_induction h (fun _ s x _ hq => ordered_insert hq s x)

theorem mem_symbols_addRow {r other : Row α} {factor : α} {y : Symbol}
    (h : y ∈ (r.addRow other factor).symbols) : y ∈ r.symbols ∨ y ∈ other.symbols := by
  refine addRow_induction (motive := fun q => y ∈ q.symbols → y ∈ r.symbols ∨ y ∈ other.symbols)
    Or.inl ?_ h
  intro q s x hs ih hy
  rcases mem_symbols_insert hy with rfl | hy
  · exact Or.inr hs
  · exact ih hy

theorem ordered_shift {r : Row α} (h : r.Ordered) (x : α) :
    (r.shift x).Ordered :=
  h

@[simp] theorem symbols_negate (r : Row α) :
    r.negate.symbols = r.symbols := by
  simp [negate, symbols, Function.comp_def]

theorem ordered_negate {r : Row α} (h : r.Ordered) : r.negate.Ordered :=
  ordered_mapCells _ (fun x => -x) h

@[simp] theorem symbols_solveFor (r : Row α) (s : Symbol) :
    (r.solveFor s).symbols = (r.erase s).symbols := by
  simp [solveFor, symbols, Function.comp_def]

theorem ordered_solveFor {r : Row α} (h : r.Ordered) (s : Symbol) :
    (r.solveFor s).Ordered :=
  ordered_mapCells _ (fun x => x * (-Scalar.one / (r.get? s).getD Scalar.one))
    (ordered_erase h s)

theorem ordered_exchange {r : Row α} (h : r.Ordered) (leaving entering : Symbol) :
    (r.exchange leaving entering).Ordered :=
  ordered_solveFor (ordered_insert h leaving _) entering

/-- A solved row speaks of the symbol that left and of the others, and no
longer of the symbol that it is solved for. -/
theorem Ordered.mem_symbols_exchange {r : Row α} (h : r.Ordered)
    {leaving entering y : Symbol} (hy : y ∈ (r.exchange leaving entering).symbols) :
    y ≠ entering ∧ (y = leaving ∨ y ∈ r.symbols) := by
  rw [exchange, symbols_solveFor] at hy
  constructor
  · rintro rfl
    exact (ordered_insert h leaving _).notMem_symbols_erase y hy
  · exact mem_symbols_insert (mem_of_mem_symbols_erase hy)

theorem substitute_of_notMem {r : Row α} {s : Symbol} (h : s ∉ r.symbols)
    (replacement : Row α) : r.substitute s replacement = r := by
  simp [substitute, get?_eq_none_iff.mpr h]

theorem ordered_substitute {r : Row α} (h : r.Ordered) (s : Symbol) (replacement : Row α) :
    (r.substitute s replacement).Ordered := by
  unfold substitute
  split
  · exact ordered_addRow (ordered_erase h s) replacement _
  · exact h

/-- What a substitution leaves in a row: its other symbols, and the symbols of
the replacement if the replaced symbol was there. -/
theorem Ordered.mem_symbols_substitute {r : Row α} (h : r.Ordered) {s y : Symbol}
    {replacement : Row α} (hy : y ∈ (r.substitute s replacement).symbols) :
    (y ∈ r.symbols ∧ y ≠ s) ∨ (s ∈ r.symbols ∧ y ∈ replacement.symbols) := by
  by_cases hs : s ∈ r.symbols
  · obtain ⟨x, hx⟩ : ∃ x, r.get? s = some x :=
      Option.ne_none_iff_exists'.mp (fun hn => get?_eq_none_iff.mp hn hs)
    simp only [substitute, hx] at hy
    rcases mem_symbols_addRow hy with hy | hy
    · refine Or.inl ⟨mem_of_mem_symbols_erase hy, ?_⟩
      rintro rfl
      exact h.notMem_symbols_erase y hy
    · exact Or.inr ⟨hs, hy⟩
  · rw [substitute_of_notMem hs] at hy
    exact Or.inl ⟨hy, fun he => hs (he ▸ hy)⟩

end Arithmetic

end Row
end Simplex
end Tether
