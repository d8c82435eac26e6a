import Tether.Proofs.Outcome
import Tether.Proofs.Row.Choice
import Tether.Proofs.Tableau.SolvedForm
import Tether.Solver.Pivoting

/-!
# Pivots keep the solved form

A solver is proper if its rows and both objectives speak of parametric symbols
only.  Substituting, entering, leaving and every step of the pivot loops keep
a solver proper, whatever the arithmetic does.
-/

namespace Tether
namespace Solver

open Simplex

variable {α : Type}

section Dropping

theorem knows_dropRow {s : Solver α} {x y : Symbol} :
    (s.dropRow x).tableau.Knows y ↔ s.tableau.Knows y := by
  unfold Tableau.Knows dropRow
  rw [Tableau.kindAt?_erase]

theorem rowAt?_dropRow (s : Solver α) (x : Symbol) (id : Nat) :
    (s.dropRow x).tableau.rowAt? id = if x.id = id then none else s.tableau.rowAt? id :=
  Tableau.rowAt?_erase s.tableau x id

theorem withRow_eq_some_iff {t : Tableau α} {choice : Option Symbol} {x : Symbol} {r : Row α} :
    withRow t choice = some (x, r) ↔ choice = some x ∧ t.row? x = some r := by
  simp only [withRow, Option.bind_eq_some_iff, Option.map_eq_some_iff, Prod.mk.injEq]
  constructor
  · rintro ⟨y, hy, r', hr, rfl, rfl⟩
    exact ⟨hy, hr⟩
  · rintro ⟨hx, hr⟩
    exact ⟨x, hx, r, hr, rfl, rfl⟩

/-- The rows and both objectives speak of parametric symbols only, and what is
recorded as infeasible is known. -/
structure Proper (s : Solver α) : Prop where
  rows : s.tableau.Solved
  objective : s.tableau.Admits s.objective
  artificial : ∀ r ∈ s.artificial, s.tableau.Admits r
  infeasible : ∀ x ∈ s.infeasible, s.tableau.Knows x

/-- Being proper is a matter of the rows, and not of the books. -/
theorem Proper.of_rows {s u : Solver α} (h : s.Proper) (ht : u.tableau = s.tableau)
    (ho : u.objective = s.objective) (ha : u.artificial = s.artificial)
    (hi : u.infeasible = s.infeasible) : u.Proper where
  rows := ht ▸ h.rows
  objective := ht ▸ ho ▸ h.objective
  artificial := ht ▸ ha ▸ h.artificial
  infeasible := ht ▸ hi ▸ h.infeasible

theorem Proper.dropRow {s : Solver α} (h : s.Proper) (x : Symbol) : (s.dropRow x).Proper where
  rows := h.rows.erase x
  objective := h.objective.of_parametric (fun _ _ hy => hy.erase x)
  artificial := fun r hr => (h.artificial r hr).of_parametric (fun _ _ hy => hy.erase x)
  infeasible := fun y hy => knows_dropRow.mpr (h.infeasible y hy)

theorem Proper.withInfeasible {s : Solver α} (h : s.Proper) {l : List Symbol}
    (hl : ∀ x ∈ l, x ∈ s.infeasible) : Proper { s with infeasible := l } where
  rows := h.rows
  objective := h.objective
  artificial := h.artificial
  infeasible := fun x hx => h.infeasible x (hl x hx)

theorem admits_goalRow? {s : Solver α} (h : s.Proper) {goal : Goal} {r : Row α}
    (hr : s.goalRow? goal = some r) : s.tableau.Admits r := by
  cases goal with
  | primary => cases hr; exact h.objective
  | artificial => exact h.artificial r hr

end Dropping

variable [Scalar α]

section Views

theorem rowAt?_modifyMentioning (s : Solver α) (x : Symbol) {f : Row α → Row α}
    (hf : ∀ r, x ∉ r.symbols → f r = r) (id : Nat) :
    (s.modifyMentioning x f).tableau.rowAt? id = (s.tableau.rowAt? id).map f :=
  Tableau.rowAt?_modifyMentioning s.tableau x hf id

@[simp] theorem kindAt?_modifyMentioning (s : Solver α) (x : Symbol) (f : Row α → Row α)
    (id : Nat) :
    (s.modifyMentioning x f).tableau.kindAt? id = s.tableau.kindAt? id :=
  Tableau.kindAt?_modifyMentioning s.tableau x _ id

theorem infeasible_modifyMentioning (s : Solver α) (x : Symbol) (f : Row α → Row α) :
    (s.modifyMentioning x f).infeasible = s.infeasible ++
      (s.tableau.mentioning x).filter
        (fun y => !y.isExternal && (s.modifyMentioning x f).isInfeasible y) := by
  rfl

theorem rowAt?_substitute (s : Solver α) (x : Symbol) (q : Row α) (id : Nat) :
    (s.substitute x q).tableau.rowAt? id =
      (s.tableau.rowAt? id).map (fun r => r.substitute x q) :=
  rowAt?_modifyMentioning s x (fun _ h => Row.substitute_of_notMem h q) id

@[simp] theorem kindAt?_substitute (s : Solver α) (x : Symbol) (q : Row α) (id : Nat) :
    (s.substitute x q).tableau.kindAt? id = s.tableau.kindAt? id :=
  kindAt?_modifyMentioning s x _ id

theorem row?_substitute (s : Solver α) (x y : Symbol) (q : Row α) :
    (s.substitute x q).tableau.row? y =
      (s.tableau.row? y).map (fun r => r.substitute x q) :=
  rowAt?_substitute s x q y.id

theorem knows_substitute {s : Solver α} {x y : Symbol} {q : Row α} :
    (s.substitute x q).tableau.Knows y ↔ s.tableau.Knows y := by
  unfold Tableau.Knows
  rw [kindAt?_substitute]

theorem parametric_substitute {s : Solver α} {x y : Symbol} {q : Row α} :
    (s.substitute x q).tableau.Parametric y ↔ s.tableau.Parametric y := by
  unfold Tableau.Parametric
  rw [knows_substitute, row?_substitute, Option.map_eq_none_iff]

@[simp] theorem kindAt?_enter (s : Solver α) (x : Symbol) (q : Row α) (id : Nat) :
    (s.enter x q).tableau.kindAt? id = s.tableau.kindAt? id := by
  simp [enter]

theorem rowAt?_enter {s : Solver α} {x : Symbol} (hx : s.tableau.Knows x) (q : Row α)
    (id : Nat) :
    (s.enter x q).tableau.rowAt? id =
      if x.id = id then some q
      else (s.tableau.rowAt? id).map (fun r => r.substitute x q) := by
  have hlt : x.id < (s.substitute x q).tableau.symbolCount := (knows_substitute.mpr hx).id_lt
  unfold enter
  rw [Tableau.rowAt?_insert, rowAt?_substitute]
  by_cases h : x.id = id
  · subst h
    rw [if_pos ⟨rfl, hlt⟩, if_pos rfl]
  · rw [if_neg (fun hc => h hc.1), if_neg h]

theorem knows_enter {s : Solver α} {x y : Symbol} {q : Row α} :
    (s.enter x q).tableau.Knows y ↔ s.tableau.Knows y := by
  unfold Tableau.Knows
  rw [kindAt?_enter]

end Views

section Proper

theorem knows_of_mem_infeasible_modifyMentioning {s : Solver α} {x y : Symbol}
    {f : Row α → Row α} (h : ∀ y ∈ s.infeasible, s.tableau.Knows y)
    (hy : y ∈ (s.modifyMentioning x f).infeasible) : s.tableau.Knows y := by
  rw [infeasible_modifyMentioning] at hy
  rcases List.mem_append.mp hy with hy | hy
  · exact h y hy
  · exact (Tableau.mem_mentioning_iff.mp (List.mem_of_mem_filter hy)).1

theorem Proper.substitute {s : Solver α} (h : s.Proper) (x : Symbol) {q : Row α}
    (hq : s.tableau.Admits q) : (s.substitute x q).Proper where
  rows := by
    intro id r hr
    rw [rowAt?_substitute] at hr
    obtain ⟨r₀, hr₀, rfl⟩ := Option.map_eq_some_iff.mp hr
    exact ((h.rows id r₀ hr₀).substitute hq x).of_parametric
      (fun _ _ hy => parametric_substitute.mpr hy)
  objective :=
    (h.objective.substitute hq x).of_parametric (fun _ _ hy => parametric_substitute.mpr hy)
  artificial := by
    intro r hr
    obtain ⟨r₀, hr₀, rfl⟩ := Option.map_eq_some_iff.mp hr
    exact ((h.artificial r₀ hr₀).substitute hq x).of_parametric
      (fun _ _ hy => parametric_substitute.mpr hy)
  infeasible := fun y hy =>
    knows_substitute.mpr (knows_of_mem_infeasible_modifyMentioning h.infeasible hy)

/-- After a substitution no row speaks of the replaced symbol. -/
theorem notMem_symbols_substitute {r q : Row α} {x : Symbol} (hr : r.Ordered)
    (hx : x ∉ q.symbols) : x ∉ (r.substitute x q).symbols := by
  intro hm
  rcases hr.mem_symbols_substitute hm with ⟨-, hne⟩ | ⟨-, hq⟩
  · exact hne rfl
  · exact hx hq

/-- A symbol may enter with a row that does not mention it. -/
theorem Proper.enter {s : Solver α} (h : s.Proper) {x : Symbol} {q : Row α}
    (hx : s.tableau.Knows x) (hq : s.tableau.Admits q) (hxq : x ∉ q.symbols) :
    (s.enter x q).Proper := by
  have hs := h.substitute x hq
  have hp : ∀ y, (s.substitute x q).tableau.Parametric y → y ≠ x →
      (s.enter x q).tableau.Parametric y :=
    fun y hy hne => hy.insert (knows_substitute.mpr hx) hne q
  have hrow : ∀ r : Row α, s.tableau.Admits r →
      (s.enter x q).tableau.Admits (r.substitute x q) := by
    intro r hr
    refine ⟨(hr.substitute hq x).ordered, fun y hy => hp y ?_ ?_⟩
    · exact parametric_substitute.mpr ((hr.substitute hq x).parametric y hy)
    · rintro rfl
      exact notMem_symbols_substitute hr.ordered hxq hy
  refine ⟨?_, hrow _ h.objective, ?_, fun y hy => knows_enter.mpr ?_⟩
  · intro id r hr
    rw [rowAt?_enter hx] at hr
    split at hr
    · cases hr
      refine hq.of_parametric (fun y hy hpy => hp y (parametric_substitute.mpr hpy) ?_)
      rintro rfl
      exact hxq hy
    · obtain ⟨r₀, hr₀, rfl⟩ := Option.map_eq_some_iff.mp hr
      exact hrow r₀ (h.rows id r₀ hr₀)
  · intro r hr
    obtain ⟨r₀, hr₀, rfl⟩ := Option.map_eq_some_iff.mp hr
    exact hrow r₀ (h.artificial r₀ hr₀)
  · exact knows_of_mem_infeasible_modifyMentioning h.infeasible hy

/-- The row of a symbol that left, solved for another symbol, is admitted. -/
theorem Proper.admits_exchange {s : Solver α} (h : s.Proper) {leaving entering : Symbol}
    {r : Row α} (hl : s.tableau.Knows leaving) (hr : s.tableau.row? leaving = some r) :
    (s.dropRow leaving).tableau.Admits (r.exchange leaving entering) := by
  have hrow := (h.rows leaving.id r hr).of_parametric (fun _ _ hy => hy.erase leaving)
  exact (hrow.insert (Tableau.parametric_erase_self hl) _).solveFor entering

theorem Proper.pivot {s : Solver α} (h : s.Proper) {leaving entering : Symbol}
    {r : Row α} (hl : s.tableau.Knows leaving) (hr : s.tableau.row? leaving = some r)
    (he : s.tableau.Knows entering) :
    ((s.dropRow leaving).pivot leaving entering r).Proper :=
  (h.dropRow leaving).enter (knows_dropRow.mpr he) (h.admits_exchange hl hr)
    (fun hm => ((h.rows leaving.id r hr).ordered.mem_symbols_exchange hm).1 rfl)

end Proper

section Choices

theorem mem_symbols_of_entering? {objective : Row α} {x : Symbol}
    (h : entering? objective = some x) : x ∈ objective.symbols ∧ x.isDummy = false := by
  obtain ⟨v, hv⟩ := exists_mem_of_least? _ h
  obtain ⟨hm, hd⟩ := List.mem_filter.mp hv
  exact ⟨Row.mem_symbols_iff.mpr ⟨v, hm⟩, by simpa using hd⟩

theorem knows_of_leaving? {t : Tableau α} {entering x : Symbol}
    (h : leaving? t entering = some x) : t.Knows x ∧ x.isPivotable = true := by
  obtain ⟨v, hv⟩ := exists_mem_of_least? _ h
  obtain ⟨b, hb, he⟩ := List.mem_filterMap.mp hv
  dsimp only at he
  split at he
  · rename_i hc
    cases he
    exact ⟨(Tableau.mem_basics_iff.mp hb).1, by simp_all⟩
  · cases he

theorem mem_symbols_of_dualEntering? {s : Solver α} {r : Row α} {x : Symbol}
    (h : s.dualEntering? r = some x) : x ∈ r.symbols ∧ x.isDummy = false := by
  obtain ⟨v, hv⟩ := exists_mem_of_least? _ h
  obtain ⟨c, hc, he⟩ := List.mem_filterMap.mp hv
  split at he
  · cases he
    exact ⟨Row.mem_symbols_iff.mpr ⟨c.2, hc⟩, by simp_all⟩
  · cases he

theorem foldl_choose_mem (p : Symbol → Symbol → Bool) (l : List Symbol) (x : Symbol) :
    l.foldl (fun best y => if p y best then y else best) x ∈ x :: l := by
  induction l generalizing x with
  | nil => exact List.mem_singleton_self x
  | cons z l ih =>
      rw [List.foldl_cons]
      split
      · exact List.mem_cons_of_mem x (ih z)
      · rcases List.mem_cons.mp (ih x) with h | h
        · exact List.mem_cons.mpr (Or.inl h)
        · exact List.mem_cons_of_mem x (List.mem_cons_of_mem z h)

theorem mem_stillInfeasible_of_mostInfeasible? {s : Solver α} {x : Symbol}
    (h : s.mostInfeasible? = some x) : x ∈ s.stillInfeasible := by
  unfold mostInfeasible? at h
  split at h
  · cases h
  · rename_i y rest hs
    rw [hs]
    cases h
    exact foldl_choose_mem s.leavesBefore rest y

end Choices

section Steps

theorem primalStep_keeps_proper (goal : Goal) {s : Solver α} (h : s.Proper) :
    (primalStep goal s).Keeps Proper (fun p => p.1.Proper) := by
  unfold primalStep
  split
  · exact h
  · rename_i objective hobj
    split
    · exact h
    · rename_i entering hent
      split
      · exact h
      · rename_i leaving r hrow
        obtain ⟨hl, hr⟩ := withRow_eq_some_iff.mp hrow
        have he := (admits_goalRow? h hobj).parametric _ (mem_symbols_of_entering? hent).1
        exact h.pivot (knows_of_leaving? hl).1 hr he.1

theorem proper_optimize (goal : Goal) (limit : Nat) {s : Solver α} (h : s.Proper) :
    Ensures (s.optimize goal limit) (fun p => p.1.Proper) :=
  ensures_iterate (fun _ hs => primalStep_keeps_proper goal hs) limit h

theorem dualStep_keeps_proper {s : Solver α} (h : s.Proper) :
    (dualStep s).Keeps Proper (fun p => p.1.Proper) := by
  unfold dualStep
  split
  · exact h.withInfeasible (by simp)
  · rename_i leaving hleave
    have hl : leaving ∈ s.infeasible :=
      List.mem_of_mem_filter (mem_stillInfeasible_of_mostInfeasible? hleave)
    have hs : Proper { s with infeasible := s.stillInfeasible.filter (· ≠ leaving) } :=
      h.withInfeasible (fun x hx => List.mem_of_mem_filter (List.mem_of_mem_filter hx))
    dsimp only
    split
    · exact hs
    · rename_i r hr
      split
      · exact hs
      · rename_i entering hent
        have he := (h.rows leaving.id r hr).parametric _ (mem_symbols_of_dualEntering? hent).1
        exact hs.pivot (h.infeasible leaving hl) hr he.1

end Steps

end Solver
end Tether
