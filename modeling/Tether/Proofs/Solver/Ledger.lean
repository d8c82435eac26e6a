import Mathlib.Data.List.Flatten
import Mathlib.Data.List.Pairwise
import Tether.Proofs.OrderedMap
import Tether.Proofs.Solver.Rejection
import Tether.Proofs.Solver.SolvedForm
import Tether.Solver.Editing

/-!
# The books of a solver

What a solver keeps beside its rows, and in what sense that is in order.

* `Tagged`: every installed constraint has a tag of the right kinds, and no
  two tags share a symbol.
* `Counted`: every known variable has an external symbol of its own, and its
  references are counted by a given demand.
* `Held`: every edit variable is held by an installed preference of its own.

A solver with all three and in solved form has a `Ledger`.  Nothing here uses
a law of arithmetic.
-/

namespace Tether

open Simplex

variable {α : Type}

section Variables

/-- Every known variable has an external symbol of its own, its references are
what is demanded, and every demanded variable is known. -/
structure Counted (t : Tableau α) (m : OrderedMap Variable (VariableEntry α))
    (demand : Variable → Nat) : Prop where
  symbols : ∀ e ∈ m.entries, t.Knows e.2.symbol ∧ e.2.symbol.kind = .external
  distinct : (m.entries.map (·.2.symbol)).Nodup
  keys : m.keys.Nodup
  references : ∀ e ∈ m.entries, e.2.references = demand e.1
  demanded : ∀ v, 0 < demand v → m.contains v = true

variable {t t' : Tableau α} {m : OrderedMap Variable (VariableEntry α)}
  {demand : Variable → Nat}

theorem Counted.mono (h : Counted t m demand) (hk : ∀ x, t.Knows x → t'.Knows x) :
    Counted t' m demand :=
  ⟨fun e he => ⟨hk _ (h.symbols e he).1, (h.symbols e he).2⟩, h.distinct, h.keys,
    h.references, h.demanded⟩

/-- A new variable is not demanded yet. -/
theorem Counted.insert (h : Counted t m demand) {v : Variable} (hv : m.contains v = false) :
    Counted (t.newSymbol .external).2
      (m.insert v ⟨(t.newSymbol .external).1, none, 0⟩) demand := by
  have he := OrderedMap.entries_insert_of_not_contains hv
    (⟨(t.newSymbol .external).1, none, 0⟩ : VariableEntry α)
  refine ⟨?_, ?_, ?_, ?_, ?_⟩
  · intro e hm
    rw [he] at hm
    rcases List.mem_append.mp hm with hm | hm
    · exact ⟨(h.symbols e hm).1.newSymbol _, (h.symbols e hm).2⟩
    · rw [List.mem_singleton.mp hm]
      exact ⟨Tableau.knows_newSymbol t _, rfl⟩
  · rw [he, List.map_append]
    refine List.nodup_append'.mpr ⟨h.distinct, List.nodup_singleton _, ?_⟩
    intro x hx hx'
    obtain ⟨e, hm, rfl⟩ := List.mem_map.mp hx
    have hlt := (h.symbols e hm).1.id_lt
    rw [List.mem_singleton.mp hx'] at hlt
    exact Nat.lt_irrefl _ hlt
  · rw [OrderedMap.keys_insert, hv]
    refine List.nodup_append'.mpr ⟨h.keys, List.nodup_singleton _, ?_⟩
    intro w hw hw'
    rw [List.mem_singleton.mp hw'] at hw
    rw [OrderedMap.contains_iff_mem_keys.mpr hw] at hv
    cases hv
  · intro e hm
    rw [he] at hm
    rcases List.mem_append.mp hm with hm | hm
    · exact h.references e hm
    · rw [List.mem_singleton.mp hm]
      by_contra hne
      have := h.demanded v (Nat.pos_of_ne_zero (fun h0 => hne h0.symm))
      rw [hv] at this
      cases this
  · intro w hw
    rw [OrderedMap.contains_iff_mem_keys, OrderedMap.keys_insert, hv]
    exact List.mem_append_left _ (OrderedMap.contains_iff_mem_keys.mp (h.demanded w hw))

/-- A variable that is no longer demanded may be forgotten. -/
theorem Counted.erase (h : Counted t m demand) {v : Variable} (hv : demand v = 0) :
    Counted t (m.erase v) demand := by
  have he := OrderedMap.entries_erase h.keys v
  have hsub : (m.erase v).entries.Sublist m.entries := List.eraseP_sublist
  refine ⟨fun e hm => h.symbols e (hsub.subset hm), h.distinct.sublist (hsub.map _),
    h.keys.sublist (hsub.map _), fun e hm => h.references e (hsub.subset hm), ?_⟩
  intro w hw
  have hw' := OrderedMap.contains_iff_mem_keys.mp (h.demanded w hw)
  rw [OrderedMap.contains_iff_mem_keys]
  obtain ⟨e, hm, rfl⟩ := List.mem_map.mp hw'
  have hne : (e.1 == v) = false := by
    rw [beq_eq_false_iff_ne]
    rintro rfl
    omega
  refine OrderedMap.mem_keys_of_mem ?_
  rw [he, List.mem_filter]
  exact ⟨hm, by simp [hne]⟩

end Variables

variable [Scalar α]

section Contents

theorem Constraint.beq_iff {a b : Constraint α} : (a == b) = true ↔ a.content = b.content := by
  exact decide_eq_true_iff

theorem Constraint.beq_comm (a b : Constraint α) : (a == b) = (b == a) := by
  rw [Bool.eq_iff_iff, Constraint.beq_iff, Constraint.beq_iff, eq_comm]

/-- Whether a term counts as a reference to a variable. -/
def Term.refersTo (v : Variable) (t : Term α) : Bool :=
  !Scalar.nearZero t.coefficient && t.unknown == v

theorem Term.refersTo_unknown {t : Term α} (h : Scalar.nearZero t.coefficient = false) :
    t.refersTo t.unknown = true := by
  simp [Term.refersTo, h]

theorem Term.refersTo_of_ne {t : Term α} {v : Variable}
    (h : Scalar.nearZero t.coefficient = true ∨ v ≠ t.unknown) : t.refersTo v = false := by
  rcases h with h | h
  · simp [Term.refersTo, h]
  · simp [Term.refersTo, Ne.symm h]

/-- What the marker of a constraint stands for. -/
def Constraint.markerKind (c : Constraint α) : SymbolKind :=
  match c.relation with
  | .equalTo => if c.strength.isRequired then .dummy else .error
  | _ => .slack

/-- The symbols of a tag are of the kinds that a constraint asks for. -/
def Tag.Fits (tag : Tag) (c : Constraint α) : Prop :=
  tag.marker.kind = c.markerKind ∧
    tag.other.map (·.kind) = if c.strength.isRequired then none else some .error

end Contents

section Tags

/-- The installed constraints have different contents and fitting tags that
share no symbol. -/
structure Tagged (t : Tableau α) (l : List (Constraint α × Tag)) : Prop where
  fits : ∀ e ∈ l, e.2.Fits e.1
  knows : ∀ e ∈ l, ∀ x ∈ e.2.symbols, t.Knows x
  disjoint : (l.flatMap (·.2.symbols)).Nodup
  contents : l.Pairwise (fun a b => (a.1 == b.1) = false)

theorem Tagged.mono {t t' : Tableau α} {l : List (Constraint α × Tag)} (h : Tagged t l)
    (hk : ∀ x, t.Knows x → t'.Knows x) : Tagged t' l :=
  ⟨h.fits, fun e he x hx => hk x (h.knows e he x hx), h.disjoint, h.contents⟩

theorem Tagged.sublist {t : Tableau α} {l l' : List (Constraint α × Tag)} (h : Tagged t l)
    (hl : l'.Sublist l) : Tagged t l' where
  fits := fun e he => h.fits e (hl.subset he)
  knows := fun e he => h.knows e (hl.subset he)
  disjoint := h.disjoint.sublist (hl.flatMap _)
  contents := h.contents.sublist hl

/-- Entries of the same content are the same entry. -/
theorem Tagged.eq_of_beq {t : Tableau α} {l : List (Constraint α × Tag)} (h : Tagged t l)
    {a b : Constraint α × Tag} (ha : a ∈ l) (hb : b ∈ l) (hab : (a.1 == b.1) = true) :
    a = b := by
  have : Std.Symm (fun a b : Constraint α × Tag => (a.1 == b.1) = false) :=
    ⟨fun a b hne => Constraint.beq_comm a.1 b.1 ▸ hne⟩
  by_contra hne
  have := h.contents.forall ha hb hne
  rw [hab] at this
  cases this

theorem Tagged.append {t : Tableau α} {l : List (Constraint α × Tag)} (h : Tagged t l)
    {c : Constraint α} {tag : Tag} (hf : tag.Fits c) (hk : ∀ x ∈ tag.symbols, t.Knows x)
    (hn : tag.symbols.Nodup) (hd : ∀ e ∈ l, ∀ x ∈ e.2.symbols, x ∉ tag.symbols)
    (hc : ∀ e ∈ l, (e.1 == c) = false) : Tagged t (l ++ [(c, tag)]) where
  fits := by
    intro e he
    rcases List.mem_append.mp he with he | he
    · exact h.fits e he
    · rw [List.mem_singleton.mp he]
      exact hf
  knows := by
    intro e he
    rcases List.mem_append.mp he with he | he
    · exact h.knows e he
    · rw [List.mem_singleton.mp he]
      exact hk
  disjoint := by
    rw [List.flatMap_append, List.flatMap_singleton]
    refine List.nodup_append'.mpr ⟨h.disjoint, hn, ?_⟩
    intro x hx
    obtain ⟨e, he, hx⟩ := List.mem_flatMap.mp hx
    exact hd e he x hx
  contents := by
    refine List.pairwise_append.mpr ⟨h.contents, List.pairwise_singleton _ _, ?_⟩
    intro e he e' he'
    rw [List.mem_singleton.mp he']
    exact hc e he

end Tags

section References

/-- Changing the references of one variable changes the demand for it. -/
theorem Counted.countReference {t : Tableau α} {m : OrderedMap Variable (VariableEntry α)}
    {f : Nat → Nat} {demand demand' : Variable → Nat} {x : Term α}
    (h : Counted t m demand)
    (hf : Scalar.nearZero x.coefficient = false → f (demand x.unknown) = demand' x.unknown)
    (ho : ∀ v, (Scalar.nearZero x.coefficient = true ∨ v ≠ x.unknown) → demand' v = demand v)
    (hc : Scalar.nearZero x.coefficient = false → m.contains x.unknown = true) :
    Counted t (Solver.countReference f m x) demand' := by
  unfold Solver.countReference
  split
  · rename_i hz
    have hd : demand' = demand := funext (fun v => ho v (Or.inl hz))
    rwa [hd]
  · rename_i hz
    have hz : Scalar.nearZero x.coefficient = false := by simpa using hz
    have he := OrderedMap.entries_modify h.keys x.unknown
      (fun entry => { entry with references := f entry.references })
    refine ⟨?_, ?_, ?_, ?_, ?_⟩
    · intro e hm
      rw [he] at hm
      obtain ⟨d, hd, rfl⟩ := List.mem_map.mp hm
      have := h.symbols d hd
      split <;> exact this
    · rw [he, List.map_map]
      convert h.distinct using 2
      funext e
      simp only [Function.comp_apply]
      split <;> rfl
    · rw [OrderedMap.keys_modify]
      exact h.keys
    · intro e hm
      rw [he] at hm
      obtain ⟨d, hd, rfl⟩ := List.mem_map.mp hm
      split
      · rename_i hk
        rw [beq_iff_eq] at hk
        show f d.2.references = demand' d.1
        rw [h.references d hd, hk, hf hz]
      · rename_i hk
        rw [ho d.1 (Or.inr (fun he => hk (beq_iff_eq.mpr he)))]
        exact h.references d hd
    · intro v hv
      rw [OrderedMap.contains_iff_mem_keys, OrderedMap.keys_modify,
        ← OrderedMap.contains_iff_mem_keys]
      by_cases hk : v = x.unknown
      · rw [hk]
        exact hc hz
      · rw [ho v (Or.inr hk)] at hv
        exact h.demanded v hv

/-- Retaining the variables of a list of terms adds to the demand. -/
theorem Counted.foldl_retain {t : Tableau α} {m : OrderedMap Variable (VariableEntry α)}
    {demand : Variable → Nat} (h : Counted t m demand) {terms : List (Term α)}
    (hc : ∀ x ∈ terms, Scalar.nearZero x.coefficient = false →
      m.contains x.unknown = true) :
    Counted t (terms.foldl (Solver.countReference (· + 1)) m)
      (fun v => demand v + terms.countP (·.refersTo v)) := by
  induction terms generalizing m demand with
  | nil => exact h
  | cons x rest ih =>
      have hx : Counted t (Solver.countReference (· + 1) m x)
          (fun v => demand v + if x.refersTo v then 1 else 0) := by
        refine h.countReference ?_ ?_ (hc x (by simp))
        · intro hz
          simp [Term.refersTo_unknown hz]
        · intro v hv
          simp [Term.refersTo_of_ne hv]
      have hkeys : (Solver.countReference (· + 1) m x).keys = m.keys := by
        unfold Solver.countReference
        split
        · rfl
        · exact OrderedMap.keys_modify _ _ _
      have := ih hx (fun y hy hz => by
        rw [OrderedMap.contains_eq_any_keys, hkeys, ← OrderedMap.contains_eq_any_keys]
        exact hc y (List.mem_cons_of_mem x hy) hz)
      have hdemand : (fun v => demand v + (x :: rest).countP (·.refersTo v)) =
          fun v => (demand v + if x.refersTo v then 1 else 0) + rest.countP (·.refersTo v) := by
        funext v
        rw [List.countP_cons]
        omega
      rw [hdemand]
      exact this

end References

section Edits

/-- Every edit variable is held by an installed preference of its own. -/
structure Held (edits : OrderedMap Variable (Edit α)) (l : List (Constraint α × Tag)) :
    Prop where
  installed : ∀ e ∈ edits.entries, (e.2.constraint, e.2.tag) ∈ l
  form : ∀ e ∈ edits.entries, ∃ x strength,
    e.2.constraint = Solver.holding e.1 x strength ∧ strength.isRequired = false
  keys : edits.keys.Nodup

variable {edits : OrderedMap Variable (Edit α)} {l l' : List (Constraint α × Tag)}

theorem Held.mono (h : Held edits l) (hl : ∀ e ∈ l, e ∈ l') : Held edits l' :=
  ⟨fun e he => hl _ (h.installed e he), h.form, h.keys⟩

theorem Held.erase (h : Held edits l) (v : Variable) : Held (edits.erase v) l := by
  have hsub : (edits.erase v).entries.Sublist edits.entries := List.eraseP_sublist
  exact ⟨fun e he => h.installed e (hsub.subset he), fun e he => h.form e (hsub.subset he),
    h.keys.sublist (hsub.map _)⟩

/-- With a constraint goes the edit variable that it held. -/
theorem Held.filter (h : Held edits l) {c : Constraint α}
    (hl : ∀ e ∈ l, (e.1 == c) = false → e ∈ l') :
    Held (edits.filter (fun _ edit => !(edit.constraint == c))) l' := by
  have hsub : (edits.filter (fun _ edit => !(edit.constraint == c))).entries.Sublist
      edits.entries := List.filter_sublist
  refine ⟨?_, fun e he => h.form e (hsub.subset he), h.keys.sublist (hsub.map _)⟩
  intro e he
  refine hl _ (h.installed e (hsub.subset he)) ?_
  simpa using (List.mem_filter.mp he).2

theorem Held.insert (h : Held edits l) {v : Variable} {edit : Edit α}
    (hv : edits.contains v = false) (hi : (edit.constraint, edit.tag) ∈ l)
    (hf : ∃ x strength, edit.constraint = Solver.holding v x strength ∧
      strength.isRequired = false) : Held (edits.insert v edit) l := by
  have he := OrderedMap.entries_insert_of_not_contains hv edit
  refine ⟨?_, ?_, ?_⟩
  · intro e hm
    rw [he] at hm
    rcases List.mem_append.mp hm with hm | hm
    · exact h.installed e hm
    · rw [List.mem_singleton.mp hm]
      exact hi
  · intro e hm
    rw [he] at hm
    rcases List.mem_append.mp hm with hm | hm
    · exact h.form e hm
    · rw [List.mem_singleton.mp hm]
      exact hf
  · rw [OrderedMap.keys_insert, hv]
    refine List.nodup_append'.mpr ⟨h.keys, List.nodup_singleton _, ?_⟩
    intro w hw hw'
    rw [List.mem_singleton.mp hw'] at hw
    rw [OrderedMap.contains_iff_mem_keys.mpr hw] at hv
    cases hv

/-- Edit variables that are held by constraints of one content are the same. -/
theorem Held.eq_of_beq (h : Held edits l) {d e : Variable × Edit α} (hd : d ∈ edits.entries)
    (he : e ∈ edits.entries) (hbeq : (d.2.constraint == e.2.constraint) = true) : d.1 = e.1 := by
  obtain ⟨x, strength, hform, -⟩ := h.form d hd
  obtain ⟨y, strength', hform', -⟩ := h.form e he
  have hcontent := Constraint.beq_iff.mp hbeq
  rw [hform, hform'] at hcontent
  have hterms : (Solver.holding d.1 x strength).expression.terms =
      (Solver.holding e.1 y strength').expression.terms :=
    congrArg (fun content => content.1.terms) hcontent
  exact congrArg Term.unknown (List.cons.inj hterms).1

/-- A suggestion changes the value of an edit variable and nothing else. -/
theorem Held.suggest (h : Held edits l) (v : Variable) (x : α) :
    Held (edits.modify v (fun edit => { edit with constant := x })) l := by
  have he := OrderedMap.entries_modify h.keys v
    (fun edit : Edit α => { edit with constant := x })
  refine ⟨?_, ?_, ?_⟩
  · intro e hm
    rw [he] at hm
    obtain ⟨d, hd, rfl⟩ := List.mem_map.mp hm
    have := h.installed d hd
    split <;> exact this
  · intro e hm
    rw [he] at hm
    obtain ⟨d, hd, rfl⟩ := List.mem_map.mp hm
    have := h.form d hd
    split <;> exact this
  · rw [OrderedMap.keys_modify]
    exact h.keys

end Edits

namespace Solver

/-- How many references to a variable the installed constraints make. -/
def uses (s : Solver α) (v : Variable) : Nat :=
  (s.constraints.keys.flatMap (·.expression.terms)).countP (·.refersTo v)

/-- A solver in solved form whose books are in order. -/
structure Ledger (s : Solver α) : Prop where
  proper : s.Proper
  tagged : Tagged s.tableau s.constraints.entries
  counted : Counted s.tableau s.unknowns s.uses
  held : Held s.edits s.constraints.entries

theorem ledger_empty (settings : Settings α) : (empty settings).Ledger where
  proper := by
    refine ⟨?_, ?_, ?_, ?_⟩
    · intro id r hr
      simp [empty, Tableau.empty, Tableau.rowAt?] at hr
    · exact Tableau.admits_ofConstant _ _
    · intro r hr
      cases hr
    · intro x hx
      cases hx
  tagged := ⟨by simp [empty, OrderedMap.empty], by simp [empty, OrderedMap.empty],
    by simp [empty, OrderedMap.empty], by simp [empty, OrderedMap.empty]⟩
  counted := ⟨by simp [empty, OrderedMap.empty], by simp [empty, OrderedMap.empty],
    by simp [empty, OrderedMap.empty, OrderedMap.keys], by simp [empty, OrderedMap.empty],
    by simp [uses, empty, OrderedMap.empty, OrderedMap.keys]⟩
  held := ⟨by simp [empty, OrderedMap.empty], by simp [empty, OrderedMap.empty],
    by simp [empty, OrderedMap.empty, OrderedMap.keys]⟩

theorem Ledger.withEdits {s : Solver α} (h : s.Ledger) {edits : OrderedMap Variable (Edit α)}
    (he : Held edits s.constraints.entries) : Ledger { s with edits := edits } :=
  ⟨h.proper.of_rows rfl rfl rfl rfl, h.tagged, h.counted, he⟩

/-- Work on rows leaves a ledger in order. -/
theorem Ledger.of_books {s u : Solver α} (h : s.Ledger) (hp : u.Proper)
    (hb : u.books = s.books) (hk : ∀ x, s.tableau.Knows x → u.tableau.Knows x) :
    u.Ledger := by
  simp only [books, Prod.mk.injEq] at hb
  obtain ⟨-, hc, hu, he⟩ := hb
  have huses : u.uses = s.uses := by
    funext v
    simp only [uses, hc]
  exact ⟨hp, hc ▸ h.tagged.mono hk, hu ▸ huses ▸ h.counted.mono hk, hc ▸ he ▸ h.held⟩

end Solver

end Tether
