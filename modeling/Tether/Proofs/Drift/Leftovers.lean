import Tether.Proofs.Drift.Editing

/-!
# What redundant equalities leave over

A required equality that follows from the others is installed as well, with a marker that is
basic: the row of the marker has no symbols but other markers, and its constant is what the
equality misses zero by.  That is near zero when the equality is installed.

Pivots do not touch such rows, since no dummy enters; neither do suggestions, and removals
only do if the constraint is a required equality itself.
-/

namespace Tether

open Simplex

/-- Only required equalities have dummies as markers. -/
theorem Constraint.equality_of_markerKind {c : Constraint Coarse} (h : c.markerKind = .dummy) :
    c.strength.isRequired = true ∧ c.relation = .equalTo := by
  unfold markerKind at h
  split at h
  · rename_i hrelation
    split at h
    · rename_i hrequired
      exact ⟨hrequired, hrelation⟩
    · cases h
  · cases h

namespace Solver

variable {s u w : Solver Coarse} {c installed : Constraint Coarse} {tag : Tag} {x : Symbol}
  {q r : Row Coarse} {limit : Nat}

section Rows

/-- The rows of dummies consist of dummies, and their constants are near zero. -/
def Slight (s : Solver Coarse) : Prop :=
  ∀ b ∈ s.tableau.basics, b.1.isDummy = true →
    (∀ y ∈ b.2.symbols, y.isDummy = true) ∧ |b.2.constant.value| < Coarse.epsilon

theorem Slight.of_sub (h : s.Slight) (hsub : ∀ b ∈ w.tableau.basics, b ∈ s.tableau.basics) :
    w.Slight :=
  fun b hb => h b (hsub b hb)

/-- A symbol that is no dummy is in no row of a dummy. -/
theorem Slight.substitute_eq (h : s.Slight) (hx : x.isDummy = false) {b : Symbol × Row Coarse}
    (hb : b ∈ s.tableau.basics) (hd : b.1.isDummy = true) (q : Row Coarse) :
    b.2.substitute x q = b.2 := by
  refine Row.substitute_of_notMem (fun hin => ?_) q
  have hdummy := (h b hb hd).1 x hin
  rw [hx] at hdummy
  cases hdummy

theorem Slight.substitute (h : s.Slight) (hx : x.isDummy = false) (q : Row Coarse) :
    (s.substitute x q).Slight := by
  intro b hb hd
  obtain ⟨r, hr, he⟩ := mem_basics_substitute.mp hb
  rw [h.substitute_eq hx (b := (b.1, r)) hr hd] at he
  rw [he]
  exact h (b.1, r) hr hd

theorem Slight.enter (h : s.Slight) (hk : s.tableau.Knows x) (hx : x.isDummy = false)
    (q : Row Coarse) : (s.enter x q).Slight := by
  intro b hb hd
  rcases (mem_basics_enter hk).mp hb with rfl | ⟨-, r, hr, he⟩
  · rw [hx] at hd
    cases hd
  · rw [h.substitute_eq hx (b := (b.1, r)) hr hd] at he
    rw [he]
    exact h (b.1, r) hr hd

theorem Slight.dropRow (h : s.Slight) (x : Symbol) : (s.dropRow x).Slight := by
  refine h.of_sub (fun b hb => ?_)
  obtain ⟨hk, hr⟩ := Tableau.mem_basics_iff.mp hb
  rw [Tableau.row?, rowAt?_dropRow] at hr
  split at hr
  · cases hr
  · exact Tableau.mem_basics_iff.mpr ⟨knows_dropRow.mp hk, hr⟩

theorem Slight.dropArtificial (h : s.Slight) (x : Symbol) : (s.dropArtificial x).Slight := by
  intro b hb hd
  obtain ⟨r, hr, he⟩ := mem_basics_dropArtificial.mp hb
  obtain ⟨hdummies, hconstant⟩ := h (b.1, r) hr hd
  rw [he]
  exact ⟨fun y hy => hdummies y (Row.mem_of_mem_symbols_erase hy), hconstant⟩

theorem Slight.pivot (h : s.Slight) (hk : s.tableau.Knows x) (hx : x.isDummy = false)
    (leaving : Symbol) (r : Row Coarse) : ((s.dropRow leaving).pivot leaving x r).Slight :=
  (h.dropRow leaving).enter (knows_dropRow.mpr hk) hx _

end Rows

section Loops

theorem Slight.primalStep (h : s.Slight) (hp : s.Proper) (goal : Goal) :
    (primalStep goal s).Keeps (fun u => u.Proper ∧ u.Slight)
      (fun p => p.1.Proper ∧ p.1.Slight) := by
  refine (primalStep_keeps_proper goal hp).and ?_
  unfold Solver.primalStep
  split
  · exact h
  · rename_i objective hobj
    split
    · exact h
    · rename_i entering hent
      split
      · exact h
      · obtain ⟨hin, hdummy⟩ := mem_symbols_of_entering? hent
        exact h.pivot ((admits_goalRow? hp hobj).parametric entering hin).1 hdummy _ _

theorem Slight.dualStep (h : s.Slight) (hp : s.Proper) :
    (dualStep s).Keeps (fun u => u.Proper ∧ u.Slight) (fun p => p.1.Proper ∧ p.1.Slight) := by
  refine (dualStep_keeps_proper hp).and ?_
  unfold Solver.dualStep
  split
  · exact h
  · dsimp only
    split
    · exact h
    · rename_i r hr
      split
      · exact h
      · rename_i entering hent
        obtain ⟨hin, hdummy⟩ := mem_symbols_of_dualEntering? hent
        exact Slight.pivot (s := { s with infeasible := _ }) h
          ((hp.rows _ r hr).parametric entering hin).1 hdummy _ _

theorem Slight.optimize (h : s.Slight) (hp : s.Proper) (goal : Goal) (limit : Nat) :
    Ensures (s.optimize goal limit) (fun p => p.1.Proper ∧ p.1.Slight) :=
  ensures_iterate (I := fun u => u.Proper ∧ u.Slight) (fun _ hu => hu.2.primalStep hu.1 goal)
    limit ⟨hp, h⟩

theorem Slight.dualOptimize (h : s.Slight) (hp : s.Proper) (limit : Nat) :
    Ensures (s.dualOptimize limit) (fun p => p.1.Slight) :=
  (ensures_iterate (I := fun u => u.Proper ∧ u.Slight) (fun _ hu => hu.2.dualStep hu.1) limit
    ⟨hp, h⟩).mono (fun _ hu => hu.2)

theorem Slight.reoptimize {ε : Type} (h : s.Slight) (hp : s.Proper) (limit : Nat)
    (internal : String → ε) : Ensures (reoptimize limit internal s) (fun p => p.1.Slight) :=
  ensures_reoptimize ((h.optimize hp .primary limit).mono
    (fun _ hu => ⟨fun _ => hu.2, fun _ _ => hu.2⟩))

end Loops

section Probing

theorem isDummy_of_isPivotable (hx : x.isPivotable = true) : x.isDummy = false := by
  obtain ⟨id, kind⟩ := x
  cases kind <;> first | rfl | cases hx

theorem Slight.settleProbe (h : s.Slight) (hp : s.Proper) (success : Bool) :
    (s.settleProbe x success).2.Slight := by
  unfold Solver.settleProbe
  split
  · exact h.dropArtificial x
  · rename_i r hr
    dsimp only
    split
    · exact h.dropRow x
    · split
      · exact h.dropRow x
      · rename_i entering he
        obtain ⟨hin, hpivotable⟩ := mem_symbols_of_firstPivotable? he
        exact (h.pivot ((hp.rows _ r hr).parametric entering hin).1
          (isDummy_of_isPivotable hpivotable) x r).dropArtificial x

theorem slight_host (h : u.Slight) (r : Row Coarse) : (u.host r).Slight := by
  intro b hb hd
  rcases (Tableau.mem_basics_insert (Tableau.knows_newSymbol u.tableau .slack)).mp hb with
    rfl | ⟨-, hb⟩
  · cases hd
  · exact h b ((drafts_newSymbol u .slack).tableau.mem_basics_iff.mp hb) hd

theorem Slight.probe (h : u.Slight) (hu : u.Proper) (hr : u.tableau.Admits r) (limit : Nat) :
    Ensures (probe limit u r) (fun p => p.1.Slight) := by
  unfold Solver.probe
  refine Ensures.map (((slight_host h r).optimize (hu.host hr .slack) .artificial limit).mono ?_)
  rintro ⟨w, answer⟩ ⟨hp, hw⟩
  cases answer with
  | error why => exact hw
  | ok done => exact Slight.settleProbe (s := { w with artificial := none }) hw hp.withArtificial _

end Probing

section Adding

/-- A subject is no dummy. -/
theorem isDummy_of_subject? (hx : subject? r tag = some x) : x.isDummy = false := by
  obtain ⟨d, hd, rfl⟩ := Option.map_eq_some_iff.mp hx
  have hin : ∀ d ∈ r.cells.filter (·.1.isExternal), d.1.isDummy = false := by
    intro d hd
    have hexternal := (List.mem_filter.mp hd).2
    obtain ⟨⟨id, kind⟩, a⟩ := d
    cases kind <;> first | rfl | cases hexternal
  rcases Option.or_eq_some_iff.mp hd with hd | ⟨-, hd⟩
  · exact hin d (List.mem_of_find?_eq_some hd)
  · rcases Option.or_eq_some_iff.mp hd with hd | ⟨-, hd⟩
    · exact hin d (List.mem_of_mem_head? hd)
    · obtain ⟨y, hy, rfl⟩ := Option.map_eq_some_iff.mp hd
      have hfree : isFreeSubject r y = true := List.find?_some hy
      exact isDummy_of_isPivotable (Bool.and_eq_true_iff.mp hfree).1

theorem Slight.createRow (h : s.Slight) (c : Constraint Coarse) : (s.createRow c).2.2.Slight :=
  h.of_sub (fun _ hb => (s.drafts_createRow c).tableau.mem_basics_iff.mp hb)

/-- What is left over of a redundant equality when it is installed is near zero. -/
theorem Slight.enter_marker (h : s.Slight) (hl : s.Ledger)
    (hdum : (s.createRow c).1.allDummies = true)
    (hz : Scalar.nearZero (s.createRow c).1.constant = true) :
    ((s.createRow c).2.2.enter (s.createRow c).2.1.marker
      ((s.createRow c).1.solveFor (s.createRow c).2.1.marker)).Slight := by
  have hm := made_createRow hl c
  have hin : (s.createRow c).2.1.marker ∈ (s.createRow c).2.1.symbols := by simp [Tag.symbols]
  have hknows := (hm.parametric _ hin).1
  have hslight := h.createRow c
  cases hd : (s.createRow c).2.1.marker.isDummy with
  | false => exact hslight.enter hknows hd _
  | true =>
      obtain ⟨hreq, heq⟩ := Constraint.equality_of_markerKind
        (hm.fits.1.symm.trans (beq_iff_eq.mp hd))
      have hone := abs_coefficient_marker hl hreq heq
      have hcoeff := coefficient_marker_ne_zero hl hreq heq
      intro b hb hbd
      rcases (mem_basics_enter hknows).mp hb with rfl | ⟨-, r, hr, he⟩
      · have hconstant : ((s.createRow c).1.solveFor
            (s.createRow c).2.1.marker).constant.value =
              0 - (s.createRow c).1.constant.value /
                (s.createRow c).1.exact.coefficient (s.createRow c).2.1.marker := by
          have heval := Row.eval_solveFor (σ := 0) hcoeff
          rwa [← Row.exact_solveFor, Row.eval_zero, Row.eval_zero] at heval
        refine ⟨fun y hy => ?_, ?_⟩
        · rw [Row.symbols_solveFor] at hy
          obtain ⟨a, ha⟩ := Row.mem_symbols_iff.mp (Row.mem_of_mem_symbols_erase hy)
          exact List.all_eq_true.mp hdum _ ha
        · dsimp only
          rw [hconstant, zero_sub, abs_neg, abs_div, hone, div_one]
          exact Coarse.abs_lt_of_nearZero hz
      · -- the marker is new, so it is in no row
        have hnot : (s.createRow c).2.1.marker ∉ r.symbols := by
          intro hold
          have hrow := hm.drafts.tableau.mem_basics_iff.mp hr
          have hknown := ((hl.proper.rows.admits_coarse hrow).parametric _ hold).1
          exact Nat.not_le_of_lt hknown.id_lt (hm.fresh _ hin)
        rw [Row.substitute_of_notMem hnot] at he
        rw [he]
        exact hslight (b.1, r) hr hbd

theorem Slight.install (h : w.Slight) (hp : w.Proper) (limit : Nat) (c : Constraint Coarse)
    (tag : Tag) : Ensures (install limit w c tag) (fun p => p.1.Slight) :=
  Slight.reoptimize (s := w.enlist c tag) h (hp.of_rows rfl rfl rfl rfl) limit AddError.internal

/-- An addition leaves what was left over, and what it adds to it is near zero. -/
theorem Slight.add (h : s.Slight) (hl : s.Ledger) (limit : Nat) (c : Constraint Coarse) :
    Ensures (s.add limit c) (fun p => p.1.Slight) := by
  have hm := made_createRow hl c
  have hu := h.createRow c
  refine ensures_add (fun _ => h) (fun _ x hx => ?_) (fun _ _ _ => ?_) (fun _ hdum hz => ?_)
    (fun _ _ _ _ => hu)
  · have hin := subject?_mem hx
    exact (hu.enter (hin.elim (hm.admits.parametric x) (hm.parametric x)).1
      (isDummy_of_subject? hx) _).install (hm.ledger_enter hin).proper limit c _
  · obtain ⟨hjournal, hadmits⟩ := hm.ledger_openJournal
    have hprobe := Slight.probe
      (u := { (s.createRow c).2.2 with tableau := (s.createRow c).2.2.tableau.openJournal })
      hu hjournal.proper hadmits limit
    refine ensures_installByProbe (((hprobe.and (hjournal.probe hadmits limit)).and
      (ensures_probe_recalls limit (s.createRow c).2.2 (s.createRow c).1)).mono ?_)
    rintro p ⟨⟨hslight, hledger⟩, hrecalls, -⟩
    refine ⟨fun _ => ?_, fun _ => ?_, fun _ _ => hslight⟩
    · exact Slight.install (w := p.1.keepProbe) hslight (hledger.proper.withJournal none) limit c _
    · have hback : (p.1.undoProbe (s.createRow c).2.2.objective s.unknowns.size).tableau =
          { (s.createRow c).2.2.tableau with
            journal := none, faulted := p.1.tableau.faulted } := hrecalls.rollback_eq
      refine hu.of_sub (fun b hb => ?_)
      rw [hback] at hb
      exact hb
  · exact (h.enter_marker hl hdum hz).install
      (hm.ledger_enter (Or.inr (by simp [Tag.symbols]))).proper limit c _

end Adding

section Suggesting

theorem isDummy_of_error (hx : x.kind = .error) : x.isDummy = false := by
  rw [Symbol.isDummy, hx]
  rfl

theorem Slight.shiftRow (h : s.Slight) (hk : s.tableau.Knows x) (hx : x.isDummy = false)
    (δ : Coarse) : (s.shiftRow x δ).Slight := by
  intro b hb hd
  obtain ⟨r, hr, he⟩ := mem_basics_shiftRow.mp hb
  have hid : x.id ≠ b.1.id := by
    intro hid
    rw [(Tableau.mem_basics_iff.mp hr).1.eq_of_id_eq hk hid.symm, hx] at hd
    cases hd
  rw [if_neg hid] at he
  rw [he]
  exact h (b.1, r) hr hd

theorem Slight.shiftMentioning (h : s.Slight) (hx : x.isDummy = false) (δ : Coarse) :
    (s.modifyMentioning x (fun r => r.shift (δ * r.coefficient x))).Slight := by
  intro b hb hd
  obtain ⟨r, hr, he⟩ := mem_basics_shiftMentioning.mp hb
  have hnot : x ∉ r.symbols := by
    intro hin
    have hdummy := (h (b.1, r) hr hd).1 x hin
    rw [hx] at hdummy
    cases hdummy
  rw [shift_coefficient_of_notMem hnot] at he
  rw [he]
  exact h (b.1, r) hr hd

theorem Slight.shiftEdit (h : s.Slight)
    (ht : ∀ x ∈ tag.symbols, s.tableau.Knows x ∧ x.isDummy = false) (δ : Coarse) :
    (s.shiftEdit tag δ).Slight := by
  obtain ⟨hknows, hdummy⟩ := ht tag.marker (by simp [Tag.symbols])
  unfold Solver.shiftEdit
  split
  · exact h.shiftRow hknows hdummy _
  · split
    · rename_i o ho
      obtain ⟨hknows, hdummy⟩ :=
        ht o (by simp [Tag.symbols, (Option.filter_eq_some_iff.mp ho).1])
      exact h.shiftRow hknows hdummy _
    · exact h.shiftMentioning hdummy _

/-- A suggestion leaves what was left over. -/
theorem Slight.suggest (h : s.Slight) (hl : s.Ledger) (limit : Nat) (v : Variable) (a : Coarse) :
    Ensures (s.suggest limit v a) (fun p => p.1.Slight) := by
  have hledger := hl.withEdits (hl.held.suggest v a)
  refine ensures_suggest (fun _ => h) (fun _ _ _ => h) (fun edit hv => ?_)
  have herror := fun x (hx : x ∈ edit.tag.symbols) => hl.error_of_edit hv hx
  have hwork := hledger.proper.reworked_shiftEdit (fun x hx => (herror x hx).2) (a - edit.constant)
  have hedited : Slight { s with
      edits := s.edits.modify v (fun edit => { edit with constant := a }) } := h
  exact (hedited.shiftEdit (fun x hx => ⟨(herror x hx).2, isDummy_of_error (herror x hx).1⟩)
    _).dualOptimize hwork.proper limit

end Suggesting

section Removing

/-- Removing a constraint that is no required equality leaves what was left over. -/
theorem Slight.uninstall (h : s.Slight) (hx : tag.marker.isDummy = false)
    (c : Constraint Coarse) : (s.uninstall c tag).Slight := by
  obtain ⟨g, hg⟩ := s.removeWeights_eq c tag
  have hlight : (s.removeWeights c tag).Slight := by
    rw [hg]
    exact h
  have hmarker : ((s.removeWeights c tag).removeMarker tag.marker).Slight := by
    unfold Solver.removeMarker
    split
    · exact hlight.dropRow tag.marker
    · split
      · exact hlight
      · exact (hlight.dropRow _).substitute hx _
  refine releaseVariables_induction ?_ (fun _ _ hu => hu) (fun _ _ x hu => hu.dropRow x) c
  cases tag.other with
  | none => exact hmarker
  | some o => exact hmarker.dropRow o

/-- The marker of an installed constraint that is no required equality is no dummy. -/
theorem Ledger.isDummy_of_find? (hl : s.Ledger)
    (hf : s.constraints.find? c = some (installed, tag)) (hc : c.markerKind ≠ .dummy) :
    tag.marker.isDummy = false := by
  obtain ⟨hm, hbeq⟩ := OrderedMap.mem_of_find? hf
  have hcontent := Constraint.beq_iff.mp hbeq
  simp only [Constraint.content, Prod.mk.injEq] at hcontent
  have hkind : installed.markerKind = c.markerKind := by
    rw [Constraint.markerKind, Constraint.markerKind, hcontent.2.1, hcontent.2.2]
  have hmarker := (hl.tagged.fits _ hm).1
  dsimp only at hmarker
  rw [hkind] at hmarker
  rw [Symbol.isDummy, hmarker]
  exact beq_eq_false_iff_ne.mpr hc

/-- A removal leaves what was left over, unless a required equality is removed. -/
theorem Slight.remove (h : s.Slight) (hl : s.Ledger) (limit : Nat) (hc : c.markerKind ≠ .dummy) :
    Ensures (s.remove limit c) (fun p => p.1.Slight) := by
  refine ensures_remove (fun _ => h) (fun e hf => ?_)
  obtain ⟨hledger, -⟩ := (hl.releasing_detach hf).releaseVariables
  exact Slight.reoptimize (Slight.uninstall (s := { s with constraints := s.constraints.erase c })
    h (hl.isDummy_of_find? hf hc) e.1) hledger.proper limit RemoveError.internal

end Removing

end Solver
end Tether
