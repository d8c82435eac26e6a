import Tether.Proofs.Drift.Insertion
import Tether.Proofs.Solver.Mentions

/-!
# Drift when constraints are removed

A removal gives symbols up: those of the constraint, and those of the variables that nothing
refers to any more.  The equalities that are left do not speak of them, but the rows may have
been eliminated with their values.  So values of before are found by putting the rows back
that were dropped, and these may be larger than the values that are left: they are within
the reach of the dropped rows.
-/

namespace Tether

open Simplex

/-- The marker of a required equality is a dummy. -/
theorem Constraint.Binding.marker_kind {c : Constraint Coarse} {tag : Tag} (h : c.Binding)
    (hf : tag.Fits c) : tag.marker.kind = .dummy := by
  rw [hf.1, Constraint.markerKind, h.equality]
  exact if_pos h.required

namespace Solver

variable {s u w : Solver Coarse} {c installed : Constraint Coarse} {tag : Tag} {j k : Nat}
  {F G : Reach} {l : List (Constraint Coarse × Tag)} {x marker : Symbol}

section Reaches

/-- How large values may have been before a marker is taken out: its row is dropped, or else
the row that gives way is solved for it. -/
def markerReach (s : Solver Coarse) (marker : Symbol) : Reach :=
  if s.tableau.isBasic marker then s.rowReach marker
  else (withRow s.tableau (markerLeaving? s.tableau marker)).elim Reach.id
    (fun b => Reach.ofRow (b.2.exchange b.1 marker))

/-- How large values may have been before the symbols of a constraint are taken out. -/
def takeOutReach (s : Solver Coarse) (c : Constraint Coarse) (tag : Tag) : Reach :=
  ((s.removeWeights c tag).markerReach tag.marker).comp
    (tag.other.elim Reach.id ((s.removeWeights c tag).removeMarker tag.marker).rowReach)

/-- How large values may have been before the reference of a term is taken back: the row of
its variable is dropped if the variable is forgotten. -/
def forgetReach (s : Solver Coarse) (t : Term Coarse) : Reach :=
  if (s.releaseVariable t).hasVariable t.unknown then Reach.id
  else (s.symbol? t.unknown).elim Reach.id s.rowReach

/-- How large values may have been before the references of terms are taken back. -/
def releaseReach : Solver Coarse → List (Term Coarse) → Reach
  | _, [] => Reach.id
  | s, t :: rest => (s.forgetReach t).comp (releaseReach (s.releaseVariable t) rest)

/-- How large values may have been before a constraint is removed. -/
def removalReach (s : Solver Coarse) (c : Constraint Coarse) : Reach :=
  (s.constraints.find? c).elim Reach.id (fun e =>
    (takeOutReach { s with constraints := s.constraints.erase c } e.1 e.2).comp
      (releaseReach (detach { s with constraints := s.constraints.erase c } e.1 e.2)
        e.1.expression.terms))

end Reaches

section Losing

/-- A symbol that no equality of a list speaks of may be given up. -/
theorem Drifts.giveUp (h : Drifts k F s l) (hback : Retraces j G {x} s w)
    (hm : ∀ e ∈ l, e.1.Binding → e.2.marker ≠ x)
    (hread : ∀ e ∈ l, e.1.Binding → ∀ t ∈ e.1.expression.terms,
      w.symbol? t.unknown = s.symbol? t.unknown ∧ s.symbol? t.unknown ≠ some x) :
    Drifts (k + j) (F.comp G) w l := by
  refine h.retrace hback (fun e he hbind hin => hm e he hbind (Set.mem_singleton_iff.mp hin))
    (fun e he hbind t ht => ⟨(hread e he hbind t ht).1, fun y hy hin => ?_⟩)
  rw [Set.mem_singleton_iff.mp hin] at hy
  exact (hread e he hbind t ht).2 hy

end Losing

section Markers

/-- Taking weights out changes the objective alone. -/
theorem removeWeights_eq (s : Solver Coarse) (c : Constraint Coarse) (tag : Tag) :
    ∃ g, s.removeWeights c tag = { s with objective := g } := by
  refine List.foldlRecOn (motive := fun u => ∃ g, u = { s with objective := g }) tag.symbols
    (removeWeight c.strength.value) ⟨s.objective, rfl⟩ ?_
  rintro u ⟨g, rfl⟩ x -
  unfold removeWeight
  split
  · exact ⟨g, rfl⟩
  · split <;> exact ⟨_, rfl⟩

/-- Taking a marker out is one elimination, and it gives the marker up. -/
theorem Proper.retraces_removeMarker (h : s.Proper) (hk : s.tableau.Knows marker) :
    Retraces 1 (s.markerReach marker) {marker} s (s.removeMarker marker) := by
  unfold Solver.removeMarker markerReach
  by_cases hbasic : s.tableau.isBasic marker = true
  · rw [if_pos hbasic, if_pos hbasic]
    exact (h.retraces_dropRow hk).mono (Nat.zero_le 1) (le_refl _) (Set.Subset.refl _)
  · rw [if_neg hbasic, if_neg hbasic]
    cases hrow : withRow s.tableau (markerLeaving? s.tableau marker) with
    | none => exact (Retraces.refl s).mono (Nat.zero_le 1) (le_refl _) (Set.empty_subset _)
    | some b =>
        obtain ⟨leaving, r⟩ := b
        obtain ⟨hchoice, hr⟩ := withRow_eq_some_iff.mp hrow
        obtain ⟨q, hq⟩ := mem_rowsOf_of_markerLeaving? hchoice
        obtain ⟨hmem, hcoeff⟩ := List.mem_filter.mp hq
        obtain rfl : q = r :=
          Option.some.inj ((Tableau.mem_basics_iff.mp hmem).2.symm.trans hr)
        refine h.retraces_giveWay hmem ?_
        rw [Row.coefficient_exact]
        exact Coarse.ne_zero_of_isZero (by simpa using hcoeff)

/-- Symbols that are not those of a variable, nor in a tag of a list. -/
structure Loose (s : Solver Coarse) (l : List (Constraint Coarse × Tag)) (x : Symbol) : Prop where
  knows : s.tableau.Knows x
  unread : ∀ v, s.symbol? v ≠ some x
  untagged : ∀ e ∈ l, x ∉ e.2.symbols

theorem Drifts.loosen (h : Drifts k F s l) (hx : s.Loose l x) (hback : Retraces j G {x} s w)
    (hunknowns : w.unknowns = s.unknowns) : Drifts (k + j) (F.comp G) w l := by
  refine h.giveUp hback (fun e he _ hm => hx.untagged e he (by simp [Tag.symbols, ← hm]))
    (fun _ _ _ t _ => ⟨?_, hx.unread t.unknown⟩)
  rw [symbol?, symbol?, hunknowns]

/-- Taking a constraint out of the rows makes the others drift by one elimination. -/
theorem Drifts.takeOut (h : Drifts k F s l) (hp : s.Proper)
    (htag : ∀ x ∈ tag.symbols, s.Loose l x) (c : Constraint Coarse) :
    Drifts (k + 1) (F.comp (s.takeOutReach c tag)) (s.takeOut c tag) l := by
  obtain ⟨g, hg⟩ := s.removeWeights_eq c tag
  have hwork := hp.reworked_removeWeights c (fun x hx => (htag x hx).knows)
  have hloose : ∀ x ∈ tag.symbols, (s.removeWeights c tag).Loose l x := by
    intro x hx
    rw [hg]
    exact ⟨(htag x hx).knows, (htag x hx).unread, (htag x hx).untagged⟩
  have hlight : Drifts k F (s.removeWeights c tag) l := by
    rw [hg]
    exact ⟨h.bound⟩
  have hmarker := hloose tag.marker (by simp [Tag.symbols])
  have hrework := hwork.proper.reworked_removeMarker tag.marker
  have hbooks := hrework.books
  simp only [books, Prod.mk.injEq] at hbooks
  have hout := hlight.loosen hmarker (hwork.proper.retraces_removeMarker hmarker.knows)
    hbooks.2.2.1
  unfold Solver.takeOut takeOutReach
  cases ho : tag.other with
  | none => exact hout
  | some o =>
      have hother := hloose o (by simp [Tag.symbols, ho])
      have hknows := hrework.knows o hother.knows
      have hstill : ((s.removeWeights c tag).removeMarker tag.marker).Loose l o :=
        ⟨hknows, fun v => by rw [symbol?, hbooks.2.2.1]; exact hother.unread v, hother.untagged⟩
      have hdrop := hout.loosen hstill (hrework.proper.retraces_dropRow hknows) rfl
      rwa [Reach.comp_assoc] at hdrop

end Markers

section References

/-- Forgetting the variable of a term that is taken back leaves the symbols of the variables
in installed equalities. -/
theorem Releasing.symbol?_of_forgotten {t : Term Coarse} {rest : List (Term Coarse)}
    (hr : Releasing s (t :: rest)) {entry : VariableEntry Coarse}
    (hget : (countReference (· - 1) s.unknowns t).get? t.unknown = some entry)
    (hz : entry.references = 0)
    (hw : w.unknowns = (countReference (· - 1) s.unknowns t).erase t.unknown)
    {e : Constraint Coarse × Tag} (he : e ∈ s.constraints.entries) (hbind : e.1.Binding)
    {d : Term Coarse} (hd : d ∈ e.1.expression.terms) :
    w.symbol? d.unknown = s.symbol? d.unknown ∧ s.symbol? d.unknown ≠ some entry.symbol := by
  have hc := counted_release hr.counted_cons
  have hused : 0 < s.uses d.unknown := uses_pos_iff.mpr ⟨e.1, OrderedMap.mem_keys_of_mem he, d, hd,
    Term.refersTo_unknown (hbind.kept d hd)⟩
  have hne : d.unknown ≠ t.unknown := by
    intro hsame
    rw [hsame, hr.uses_eq_zero hget hz] at hused
    exact Nat.lt_irrefl 0 hused
  have hsymbol := map_get?_countReference (· - 1) s.unknowns t d.unknown
  refine ⟨?_, fun hsame => ?_⟩
  · rw [symbol?, hw, OrderedMap.get?_erase_of_ne hc.keys hne]
    exact hsymbol
  · -- different variables have different symbols
    rw [symbol?, ← hsymbol] at hsame
    obtain ⟨other, hother, hsame⟩ := Option.map_eq_some_iff.mp hsame
    have hm := (OrderedMap.get?_eq_some_iff hc.keys).mp hget
    have hm' := (OrderedMap.get?_eq_some_iff hc.keys).mp hother
    exact hne (congrArg Prod.fst (List.inj_on_of_nodup_map hc.distinct hm' hm hsame))

/-- Taking back a reference makes installed equalities drift no further, but values may have
been as large as the row of a forgotten variable reaches. -/
theorem Drifts.releaseVariable {t : Term Coarse} {rest : List (Term Coarse)}
    (h : Drifts k F s s.constraints.entries) (hr : Releasing s (t :: rest)) :
    Drifts k (F.comp (s.forgetReach t)) (s.releaseVariable t)
      (s.releaseVariable t).constraints.entries := by
  rw [(books_releaseVariable s t).2.1]
  have hc := counted_release hr.counted_cons
  rcases releaseVariable_cases s t with hs | ⟨entry, hget, hz, hs⟩
  · have hsame : Drifts k F (s.releaseVariable t) s.constraints.entries := by
      rw [hs]
      exact h.congr (fun _ hσ => hσ) (Nat.le_refl _)
        (fun _ _ _ d _ => map_get?_countReference _ s.unknowns t d.unknown)
    exact hsame.mono (Nat.le_refl k) (F.le_comp _) (fun _ he => he)
  · have hsymbol : s.symbol? t.unknown = some entry.symbol := by
      rw [symbol?, ← map_get?_countReference (· - 1) s.unknowns t, hget]
      rfl
    have hforgotten : (s.releaseVariable t).hasVariable t.unknown = false := by
      rw [hs]
      exact OrderedMap.get?_eq_none_iff.mp (OrderedMap.get?_erase_self hc.keys _)
    obtain ⟨hknows, hkind⟩ := hc.symbols _ ((OrderedMap.get?_eq_some_iff hc.keys).mp hget)
    rw [forgetReach, hforgotten, if_neg Bool.false_ne_true, hsymbol, Option.elim_some, hs]
    have hback := hr.proper.retraces_dropRow hknows
    have hforget : Retraces 0 (s.rowReach entry.symbol) {entry.symbol} s
        { s.dropRow entry.symbol with
          unknowns := (countReference (· - 1) s.unknowns t).erase t.unknown } :=
      ⟨hback.count, hback.back⟩
    refine h.giveUp hforget (fun e he hbind hm => ?_)
      (fun e he hbind d hd => hr.symbol?_of_forgotten hget hz rfl he hbind hd)
    have hdummy := hbind.marker_kind (hr.tagged.fits e he)
    rw [hm, hkind] at hdummy
    cases hdummy

theorem Drifts.foldl_releaseVariable {terms : List (Term Coarse)}
    (h : Drifts k F s s.constraints.entries) (hr : Releasing s terms) :
    Drifts k (F.comp (s.releaseReach terms)) (terms.foldl Solver.releaseVariable s)
      (terms.foldl Solver.releaseVariable s).constraints.entries := by
  induction terms generalizing s F with
  | nil => exact h
  | cons t rest ih =>
      rw [releaseReach, ← Reach.comp_assoc]
      exact ih (h.releaseVariable hr) hr.releaseVariable

end References

section Removing

/-- The symbols of a constraint that is taken off the list are in no other tag and no
variable has them. -/
theorem Ledger.loose_of_find? (hl : s.Ledger)
    (hf : s.constraints.find? c = some (installed, tag)) (hx : x ∈ tag.symbols) :
    Loose { s with constraints := s.constraints.erase c } (s.constraints.erase c).entries x := by
  have hm := (OrderedMap.mem_of_find? hf).1
  refine ⟨hl.tagged.knows _ hm x hx, fun v hv => ?_, fun e he => ?_⟩
  · obtain ⟨entry, hget, rfl⟩ := Option.map_eq_some_iff.mp hv
    have hentry := (OrderedMap.get?_eq_some_iff hl.counted.keys).mp hget
    exact hl.kind_ne_external hm hx (hl.counted.symbols _ hentry).2
  · obtain ⟨before, after, hall, herase⟩ := OrderedMap.exists_append_of_find? hf
    have hdisjoint := hl.tagged.disjoint
    rw [hall, (List.perm_middle.flatMap_right _).nodup_iff, List.flatMap_cons] at hdisjoint
    rw [herase] at he
    exact fun hin => (List.nodup_append'.mp hdisjoint).2.2 hx (List.mem_flatMap.mpr ⟨e, he, hin⟩)

/-- Uninstalling a constraint makes the others drift by one elimination. -/
theorem Drifts.uninstall (h : Drifts k F s s.constraints.entries) (hl : s.Ledger)
    (hf : s.constraints.find? c = some (installed, tag)) :
    Drifts (k + 1) (F.comp (s.removalReach c))
      (Solver.uninstall { s with constraints := s.constraints.erase c } installed tag)
      (Solver.uninstall { s with constraints := s.constraints.erase c }
        installed tag).constraints.entries := by
  have hstart : Drifts k F { s with constraints := s.constraints.erase c }
      (s.constraints.erase c).entries :=
    (h.mono (Nat.le_refl k) (le_refl F) (fun _ he => OrderedMap.mem_of_mem_erase he)).congr
      (fun _ hσ => hσ) (Nat.le_refl _) (fun _ _ _ _ _ => rfl)
  have hout := hstart.takeOut (hl.proper.of_rows rfl rfl rfl rfl)
    (fun x hx => hl.loose_of_find? hf hx) installed
  have hbooks := (hl.reworked_takeOut hf).books
  simp only [books, Prod.mk.injEq] at hbooks
  have hdetached : Drifts (k + 1)
      (F.comp (takeOutReach { s with constraints := s.constraints.erase c } installed tag))
      (detach { s with constraints := s.constraints.erase c } installed tag)
      (detach { s with constraints := s.constraints.erase c }
        installed tag).constraints.entries := by
    have hlist : (detach { s with constraints := s.constraints.erase c } installed
        tag).constraints = s.constraints.erase c := hbooks.2.1
    rw [hlist]
    exact ⟨hout.bound⟩
  have hreleased := hdetached.foldl_releaseVariable (hl.releasing_detach hf)
  rw [Reach.comp_assoc] at hreleased
  rw [removalReach, hf]
  exact hreleased

/-- A removal makes equalities drift by what its limit allows, whatever the answer is. -/
theorem Drifts.remove (h : Drifts k F s s.constraints.entries) (hl : s.Ledger) (limit : Nat)
    (c : Constraint Coarse) : Ensures (s.remove limit c)
      (fun p => Drifts (k + (limit + 1)) (F.comp (s.removalReach c)) p.1
        p.1.constraints.entries) := by
  refine ensures_remove (fun _ => ?_) (fun e hf => ?_)
  · exact h.mono (Nat.le_add_right k _) (F.le_comp _) (fun _ he => he)
  · obtain ⟨hledger, -⟩ := (hl.releasing_detach hf).releaseVariables
    refine ((h.uninstall hl hf).reoptimize hledger.proper limit RemoveError.internal).mono ?_
    rintro p ⟨hdrifts, hsame⟩
    rw [hsame]
    exact hdrifts.mono (by omega) (le_refl _) (fun _ he => he)

end Removing

end Solver
end Tether
