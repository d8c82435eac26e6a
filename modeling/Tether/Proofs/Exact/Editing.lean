import Tether.Proofs.Exact.Insertion
import Tether.Proofs.Exact.Shifting

/-!
# Edit variables keep a solver sound

A suggestion changes what one constraint asks for, and moves the solutions
accordingly.  The objective stays settled, so the dual steps lead to a lowest
lawful solution again; there is a lawful one because the edit constraint is a
preference, which its errors can always make up for.

Beginning an edit installs a constraint that asks for the value that its variable
has; from then on the constraint asks for what is suggested.
-/

namespace Tether

open Simplex

section Current

variable {c : Constraint Rat} {edits : OrderedMap Variable (Edit Rat)}
  {l : List (Constraint Rat × Tag)} {v : Variable} {edit : Edit Rat} {x : Rat}

/-- What holds a variable at a value is how far the variable is from it. -/
theorem eval_holding (v : Variable) (x : Rat) (strength : Strength Rat) (ν : Variable → Rat) :
    (Solver.holding v x strength).expression.eval ν = ν v - x := by
  have h : (Solver.holding v x strength).expression.eval ν =
      1 * ν v + 0 + (0 + x * (-1)) := rfl
  rw [h]
  ring

/-- Only one edit variable is held by a constraint. -/
theorem Held.find?_constraint (h : Held edits l) (hv : edits.get? v = some edit)
    (hc : (edit.constraint == c) = true) :
    edits.entries.find? (fun e => e.2.constraint == c) = some (v, edit) := by
  have hm := (OrderedMap.get?_eq_some_iff h.keys).mp hv
  cases hf : edits.entries.find? (fun e => e.2.constraint == c) with
  | none => exact absurd hc (List.find?_eq_none.mp hf _ hm)
  | some e =>
      have he := List.mem_of_find?_eq_some hf
      have hec : (e.2.constraint == c) = true :=
        List.find?_some (p := fun e : Variable × Edit Rat => e.2.constraint == c) hf
      have hbeq : (e.2.constraint == edit.constraint) = true :=
        Constraint.beq_iff.mpr ((Constraint.beq_iff.mp hec).trans (Constraint.beq_iff.mp hc).symm)
      have hfst : e.1 = v := h.eq_of_beq he hm hbeq
      have hsnd : edits.get? v = some e.2 := by
        rw [OrderedMap.get?_eq_some_iff h.keys, ← hfst]
        exact he
      rw [← hfst, Option.some.inj (hv.symm.trans hsnd)]

/-- The constraint behind an edit variable asks for what was suggested last. -/
theorem Held.current_of_edit (h : Held edits l) (hv : edits.get? v = some edit)
    (hc : (edit.constraint == c) = true) :
    c.current edits =
      { c with expression := (Solver.holding v edit.constant c.strength).expression } := by
  rw [Constraint.current_of_find? (h.find?_constraint hv hc)]

/-- The constraint behind an edit variable holds it at its constant. -/
theorem Held.current_constraint (h : Held edits l) {e : Variable × Edit Rat}
    (he : e ∈ edits.entries) : e.2.constraint.current edits =
      Solver.holding e.1 e.2.constant e.2.constraint.strength := by
  obtain ⟨y, strength, hform, -⟩ := h.form e he
  rw [h.current_of_edit ((OrderedMap.get?_eq_some_iff h.keys).mpr he)
    (Constraint.beq_iff.mpr rfl), hform]
  rfl

theorem find?_map_of_fixed {β : Type} {g : β → β} {p : β → Bool} {l : List β}
    (hp : ∀ a ∈ l, p (g a) = p a) (hg : ∀ a ∈ l, p a = true → g a = a) :
    (l.map g).find? p = l.find? p := by
  induction l with
  | nil => rfl
  | cons a rest ih =>
      have hrest := ih (fun b hb => hp b (List.mem_cons_of_mem a hb))
        (fun b hb => hg b (List.mem_cons_of_mem a hb))
      rw [List.map_cons, List.find?_cons, List.find?_cons, hp a (by simp), hrest]
      cases hpa : p a with
      | true => exact congrArg some (hg a (by simp) hpa)
      | false => rfl

/-- A suggestion concerns the constraint behind the edit variable alone. -/
theorem Held.current_of_ne (h : Held edits l) (hv : edits.get? v = some edit)
    (hc : (edit.constraint == c) = false) :
    c.current (edits.modify v (fun edit => { edit with constant := x })) = c.current edits := by
  have hfind : (edits.modify v (fun edit => { edit with constant := x })).entries.find?
      (fun e => e.2.constraint == c) = edits.entries.find? (fun e => e.2.constraint == c) := by
    rw [OrderedMap.entries_modify h.keys]
    refine find?_map_of_fixed (fun e _ => ?_) (fun e he hm => ?_)
    · split <;> rfl
    · refine if_neg (fun hev => ?_)
      have hget := (OrderedMap.get?_eq_some_iff h.keys).mpr he
      rw [beq_iff_eq.mp hev, hv] at hget
      rw [← Option.some.inj hget, hc] at hm
      cases hm
  unfold Constraint.current
  rw [hfind]

/-- Beginning an edit changes nothing that a constraint asks for. -/
theorem Constraint.current_insert (hv : edits.contains v = false)
    (he : edit.constraint.expression = (Solver.holding v edit.constant c.strength).expression) :
    c.current (edits.insert v edit) = c.current edits := by
  have hentries := OrderedMap.entries_insert_of_not_contains hv edit
  cases hf : edits.entries.find? (fun e => e.2.constraint == c) with
  | some e =>
      rw [current_of_find? hf]
      refine current_of_find? ?_
      rw [hentries, List.find?_append, hf]
      rfl
  | none =>
      have hnone : c.current edits = c := by simp only [current, hf]
      rw [hnone]
      cases hc : edit.constraint == c with
      | true =>
          have hexpr : edit.constraint.expression = c.expression :=
            congrArg (fun p => p.1) (beq_iff.mp hc)
          rw [current_of_find? (e := (v, edit)), ← he, hexpr]
          rw [hentries, List.find?_append, hf]
          simp [hc]
      | false =>
          have hfind : (edits.insert v edit).entries.find? (fun e => e.2.constraint == c) =
              none := by
            rw [hentries, List.find?_append, hf]
            simp [hc]
          simp only [current, hfind]

end Current

section Moving

variable {c : Constraint Rat} {tag : Tag} {ν : Variable → Rat} {σ : Symbol → Rat} {y : Symbol}
  {d δ : Rat} {t : Tableau Rat} {l : List (Constraint Rat × Tag)}

/-- The values of the marker and of the symbol beside it, after a move. -/
theorem Tag.elim_update (hn : tag.symbols.Nodup) (h : tag.Moves y d δ) (σ : Symbol → Rat) :
    (Function.update σ y (σ y + d) tag.marker = σ tag.marker + δ ∧
      tag.other.elim 0 (Function.update σ y (σ y + d)) = tag.other.elim 0 σ ∧ d = δ) ∨
    (Function.update σ y (σ y + d) tag.marker = σ tag.marker ∧
      tag.other.elim 0 (Function.update σ y (σ y + d)) = tag.other.elim 0 σ - δ ∧ d = -δ) := by
  rcases h with ⟨rfl, rfl⟩ | ⟨ho, rfl⟩
  · refine Or.inl ⟨Function.update_self _ _ _, ?_, rfl⟩
    cases hother : tag.other with
    | none => rfl
    | some o =>
        refine Function.update_of_ne ?_ _ σ
        rintro rfl
        simp [symbols, hother] at hn
  · refine Or.inr ⟨Function.update_of_ne ?_ _ σ, ?_, rfl⟩
    · rintro rfl
      simp [symbols, ho] at hn
    · rw [ho, Option.elim_some, Option.elim_some, Function.update_self, sub_eq_add_neg]

/-- Moving an error moves what is missed. -/
theorem Tag.missed_update (hn : tag.symbols.Nodup) (hy : y ∈ tag.symbols)
    (he : y.kind = .error) (σ : Symbol → Rat) (d : Rat) :
    tag.missed (Function.update σ y (σ y + d)) = tag.missed σ + d := by
  have hself : y.missed (Function.update σ y (σ y + d)) = y.missed σ + d := by
    rw [Symbol.missed_of_error he, Symbol.missed_of_error he, Function.update_self]
  have hother : ∀ z, z ≠ y → z.missed (Function.update σ y (σ y + d)) = z.missed σ := by
    intro z hz
    unfold Symbol.missed
    rw [Function.update_of_ne hz]
  unfold Tag.missed
  cases ho : tag.other with
  | none =>
      have hym : y = tag.marker := by simpa [symbols, ho] using hy
      rw [← hym, hself]
      exact add_right_comm _ _ _
  | some o =>
      have hne : tag.marker ≠ o := by simpa [symbols, ho] using hn
      have hcases : y = tag.marker ∨ y = o := by simpa [symbols, ho] using hy
      rw [Option.elim_some, Option.elim_some]
      rcases hcases with rfl | rfl
      · rw [hself, hother o hne.symm]
        ring
      · rw [hself, hother tag.marker hne]
        ring

/-- Moving an error of one constraint moves the penalty by its weight. -/
theorem Wired.penalty_move (hw : Wired t l) {e : Constraint Rat × Tag} (he : e ∈ l)
    (hy : y ∈ e.2.symbols) (hk : y.kind = .error) (σ : Symbol → Rat) (d : Rat) :
    penalty (Function.update σ y (σ y + d)) l = penalty σ l + e.1.strength.value * d := by
  obtain ⟨before, after, rfl⟩ := List.append_of_mem he
  have hperm : (before ++ e :: after).Perm (e :: (before ++ after)) := List.perm_middle
  have hw' := hw.perm hperm
  have hsum : ∀ τ, penalty τ (before ++ e :: after) = penalty τ (e :: (before ++ after)) :=
    fun τ => (hperm.map _).sum_eq
  have hn : e.2.symbols.Nodup := (List.nodup_append'.mp (List.flatMap_cons ▸ hw'.disjoint)).1
  rw [hsum, hsum, penalty_cons, penalty_cons, Tag.missed_update hn hy hk,
    penalty_update (hw'.notMem_of_head hy)]
  ring

/-- Edits do not change what a list of constraints weighs. -/
theorem penalty_demands (edits : OrderedMap Variable (Edit Rat)) :
    penalty σ (demands edits l) = penalty σ l := by
  unfold penalty demands
  rw [List.map_map]
  refine congrArg List.sum (List.map_congr_left (fun e _ => ?_))
  simp only [Function.comp_apply, Constraint.strength_current]

variable {edits : OrderedMap Variable (Edit Rat)} {v : Variable} {edit : Edit Rat} {x : Rat}

/-- Different constraints share no symbol. -/
theorem Tagged.notMem_symbols (h : Tagged t l) {a b : Constraint Rat × Tag} (ha : a ∈ l)
    (hb : b ∈ l) (hne : a ≠ b) (hy : y ∈ a.2.symbols) : y ∉ b.2.symbols := by
  have : Std.Symm (Function.onFun List.Disjoint
      (fun e : Constraint Rat × Tag => e.2.symbols)) := ⟨fun _ _ h _ hx hx' => h hx' hx⟩
  exact (List.nodup_flatMap.mp h.disjoint).2.forall ha hb hne hy

/-- What holds an edit variable is an equality that is not required. -/
theorem Held.relation_of_edit (h : Held edits l) (hv : edits.get? v = some edit) :
    edit.constraint.relation = .equalTo ∧ edit.constraint.strength.isRequired = false := by
  obtain ⟨y, strength, hform, hs⟩ := h.form _ ((OrderedMap.get?_eq_some_iff h.keys).mp hv)
  dsimp only at hform
  rw [hform]
  exact ⟨rfl, hs⟩

/-- After a suggestion the constraints are balanced by what, moved along the edit
constraint, balanced them before. -/
theorem Held.balances_suggest (h : Held edits l) (ht : Tagged t l)
    (hv : edits.get? v = some edit) (hm : edit.tag.Moves y d (x - edit.constant))
    {e : Constraint Rat × Tag} (he : e ∈ l) :
    e.2.Balances (e.1.current edits) ν (Function.update σ y (σ y + d)) ↔
      e.2.Balances (e.1.current (edits.modify v (fun edit => { edit with constant := x })))
        ν σ := by
  have hinstalled := h.installed _ ((OrderedMap.get?_eq_some_iff h.keys).mp hv)
  cases hc : edit.constraint == e.1 with
  | true =>
      obtain rfl := ht.eq_of_beq hinstalled he hc
      obtain ⟨hrel, hreq⟩ := h.relation_of_edit hv
      have hsense : ∀ p : Expression Rat,
          Constraint.sense { edit.constraint with expression := p } = -1 := by
        intro p
        rw [Constraint.sense_of_equalTo (c := { edit.constraint with expression := p }) hrel,
          if_neg (by simp [hreq])]
      have hn : edit.tag.symbols.Nodup :=
        (List.nodup_flatMap.mp ht.disjoint).1 _ hinstalled
      dsimp only at hc ⊢
      rw [h.current_of_edit hv hc, (h.suggest v x).current_of_edit
        (OrderedMap.get?_modify_self h.keys hv _) hc]
      unfold Tag.Balances
      rw [hsense, hsense, eval_holding, eval_holding]
      rcases Tag.elim_update hn hm σ with ⟨h₁, h₂, -⟩ | ⟨h₁, h₂, -⟩
      · rw [h₁, h₂]
        constructor
        · intro hb
          linarith
        · intro hb
          linarith
      · rw [h₁, h₂]
        constructor
        · intro hb
          linarith
        · intro hb
          linarith
  | false =>
      rw [h.current_of_ne hv hc]
      refine Tag.balances_update (ht.notMem_symbols hinstalled he ?_ hm.mem_symbols)
      rintro rfl
      rw [Constraint.beq_iff.mpr rfl] at hc
      cases hc

end Moving

namespace Solver

variable {s u : Solver Rat} {v : Variable} {edit : Edit Rat} {x : Rat}

section Suggesting

/-- The solver with another value for an edit variable. -/
def retarget (s : Solver Rat) (v : Variable) (x : Rat) : Solver Rat :=
  { s with edits := s.edits.modify v (fun edit => { edit with constant := x }) }

/-- The symbols of an edit constraint are errors. -/
theorem Ledger.kind_of_edit (h : s.Ledger) (hv : s.edits.get? v = some edit) {y : Symbol}
    (hy : y ∈ edit.tag.symbols) : y.kind = .error := by
  have hm := h.held.installed _ ((OrderedMap.get?_eq_some_iff h.held.keys).mp hv)
  obtain ⟨hrel, hreq⟩ := h.held.relation_of_edit hv
  have hf := h.tagged.fits _ hm
  rcases List.mem_cons.mp hy with rfl | hy
  · exact (hf.tier_marker_of_preference hrel hreq).1
  · obtain ⟨o, ho, hk⟩ := hf.exists_other hreq
    dsimp only at ho
    rw [ho, Option.mem_toList] at hy
    rw [← Option.some.inj hy]
    exact hk

/-- Moved along an edit constraint, the solutions model what is suggested. -/
theorem Sound.models_shifted (h : s.Sound) (hv : s.edits.get? v = some edit) {y : Symbol}
    {d : Rat} (hm : edit.tag.Moves y d (x - edit.constant))
    (hu : Shifted (s.retarget v x) y d u) :
    u.Models (demands (s.retarget v x).edits s.constraints.entries) := by
  have hinstalled := h.ledger.held.installed _
    ((OrderedMap.get?_eq_some_iff h.ledger.held.keys).mp hv)
  have hkind := h.ledger.kind_of_edit hv hm.mem_symbols
  have htier := Symbol.tier_of_error hkind
  have hread : u.read = s.read := read_congr (congrArg (fun b => b.2.2.1) hu.books)
  have hlist : ((edit.constraint.current s.edits, edit.tag) : Constraint Rat × Tag) ∈
      demands s.edits s.constraints.entries := List.mem_map.mpr ⟨_, hinstalled, rfl⟩
  obtain ⟨k, hk⟩ := h.optimal.models.objective
  refine ⟨fun σ => ?_, k + edit.constraint.strength.value * d - s.objective.coefficient y * d,
    fun σ hσ => ?_⟩
  · rw [hu.solves]
    refine (h.optimal.models.solves _).trans ?_
    rw [read_update h.ledger.counted (by omega), hread]
    unfold demands
    rw [List.forall_mem_map, List.forall_mem_map]
    exact forall₂_congr (fun e he =>
      h.ledger.held.balances_suggest h.ledger.tagged hv hm he)
  · have hs := hk _ ((hu.solves σ).mp hσ)
    rw [(h.ledger.tagged.wired s.edits).penalty_move hlist hm.mem_symbols hkind,
      h.optimal.layered.proper.objective.ordered.eval_update, penalty_demands,
      Constraint.strength_current] at hs
    have ho : u.objective.eval σ = s.objective.eval σ := congrArg (Row.eval σ) hu.objective
    rw [ho, penalty_demands]
    have hd : s.objective.coefficient y * (σ y + d - σ y) = s.objective.coefficient y * d := by
      ring
    rw [hd] at hs
    linarith

/-- However the edit constraint is shifted, the solutions move along one of its
symbols. -/
theorem Sound.exists_shifted (h : s.Sound) (hv : s.edits.get? v = some edit) (x : Rat) :
    ∃ y d, edit.tag.Moves y d (x - edit.constant) ∧
      Shifted (s.retarget v x) y d ((s.retarget v x).shiftEdit edit.tag (x - edit.constant)) := by
  have hinstalled := h.ledger.held.installed _
    ((OrderedMap.get?_eq_some_iff h.ledger.held.keys).mp hv)
  have hstanding : (s.retarget v x).Standing (demands s.edits s.constraints.entries) :=
    h.optimal.toStanding.congr rfl rfl rfl rfl rfl
  exact shifted_shiftEdit hstanding.layered hstanding.feasible h.idle.infeasible
    (h.ledger.tagged.knows _ hinstalled)
    (fun y hy => Symbol.tier_of_error (h.ledger.kind_of_edit hv hy)) (x - edit.constant)

/-- Shifting keeps the objective settled and records what has become negative. -/
theorem Sound.restoring_shifted (h : s.Sound) {y : Symbol} {d : Rat}
    (hu : Shifted (s.retarget v x) y d u) : Restoring u u := by
  refine ⟨hu.layered, ?_, hu.covered, hu.recorded, .refl u⟩
  rw [hu.objective]
  exact h.optimal.settled

/-- A suggestion that changes a value leads to a sound solver. -/
theorem Sound.dualOptimize (h : s.Sound) (hv : s.edits.get? v = some edit) {y : Symbol}
    {d : Rat} (hm : edit.tag.Moves y d (x - edit.constant))
    (hu : Shifted (s.retarget v x) y d u) (limit : Nat) :
    Ensures (u.dualOptimize limit) (fun p => p.2 = .ok () ∧
      (p.1.Ledger → p.1.Idle → p.1.Sound)) := by
  have hbooks := hu.books
  simp only [books, Prod.mk.injEq] at hbooks
  obtain ⟨-, hconstraints, hunknowns, hedits⟩ := hbooks
  have hmodels := h.models_shifted hv hm hu
  have hledger : (s.retarget v x).Ledger :=
    ⟨⟨h.ledger.proper.rows, h.ledger.proper.objective, h.ledger.proper.artificial,
      h.ledger.proper.infeasible⟩, h.ledger.tagged, h.ledger.counted, h.ledger.held.suggest v x⟩
  obtain ⟨σ, hlaw, hb, -⟩ := hledger.speaks.exists_balanced (hledger.tagged.wired _)
    hledger.counted (hledger.holds_demands (ν := s.value) (fun c hc hr => h.holds hc hr))
  have hσ : u.tableau.Solves σ := by
    rw [hmodels.solves, read_congr hunknowns]
    exact hb
  have hlaw' : u.tableau.Lawful σ :=
    ⟨fun z hz => hlaw.nonneg z ((hu.knows z).mp hz), fun z hz => hlaw.zero z ((hu.knows z).mp hz)⟩
  refine (((h.restoring_shifted hu).dualOptimize hσ hlaw' limit).and
    (ensures_dualOptimize_books u limit)).mono ?_
  rintro ⟨p, answer⟩ ⟨⟨rfl, hlow, hset⟩, hpb⟩
  simp only [books, Prod.mk.injEq] at hpb
  obtain ⟨-, hpc, hpu, hpe⟩ := hpb
  refine ⟨rfl, fun hl hi => ⟨hl, hi, ?_, ?_⟩⟩
  · rw [hpc, hpe, hconstraints, hedits]
    exact ⟨⟨hlow.layered, hlow.feasible, hmodels.of_equivalent hlow.equivalent hpu⟩, hset⟩
  · rw [hpc, hconstraints]
    exact h.weights

/-- A suggestion does not break down, and leaves a sound solver sound, whatever is
suggested. -/
theorem Sound.suggest (h : s.Sound) (limit : Nat) (v : Variable) (x : Rat) :
    Ensures (s.suggest limit v x) (fun p => Calm SuggestError.internal p.2 ∧ p.1.Sound) := by
  have hcases : Ensures (s.suggest limit v x) (fun p =>
      (Calm SuggestError.internal p.2 ∧ p.1.Sound) ∨
        p.2 = .ok () ∧ (p.1.Ledger → p.1.Idle → p.1.Sound)) := by
    refine ensures_suggest (fun _ => Or.inl ⟨calm_error (fun _ he => by cases he), h⟩)
      (fun edit hv hz => Or.inl ⟨calm_ok _, ?_⟩) (fun edit hv => ?_)
    · have hx : x = edit.constant := by linarith [Scalar.isZero_iff.mp hz]
      have hsame := OrderedMap.modify_eq_self h.ledger.held.keys hv
        (f := fun edit => { edit with constant := x }) (by rw [hx])
      rw [hsame]
      exact h
    · obtain ⟨y, d, hm, hu⟩ := h.exists_shifted hv x
      refine (h.dualOptimize hv hm hu limit).mono ?_
      rintro ⟨p, answer⟩ ⟨rfl, hp⟩
      exact Or.inr ⟨rfl, hp⟩
  intro p hp
  have hl := h.ledger.suggest limit v x p hp
  have hi := h.idle.suggest limit v x p hp
  rcases hcases p hp with hs | ⟨hok, hs⟩
  · exact hs
  · have hcalm : Calm SuggestError.internal p.2 := hok ▸ calm_ok _
    exact ⟨hcalm, hs hl (hi hcalm)⟩

end Suggesting

section Holding

theorem clip_nonneg (x : Rat) : 0 ≤ (Strength.clip x).value := by
  unfold Strength.clip
  split
  · exact Rat.le_refl
  · rename_i hneg
    split
    · exact Nat.cast_nonneg 1001001000
    · exact not_lt.mp (fun h => hneg (decide_eq_true h))

/-- Beginning an edit does not break down, and leaves a sound solver sound. -/
theorem Sound.addEdit (h : s.Sound) (limit : Nat) (v : Variable) (strength : Strength Rat) :
    Ensures (s.addEdit limit v strength)
      (fun p => Calm EditError.internal p.2 ∧ p.1.Sound) := by
  have hkeep : Ensures (s.addEdit limit v strength)
      (fun p => Calm EditError.internal p.2 ∧ (p.1.Ledger → p.1.Sound)) := by
    refine ensures_addEdit (fun _ => ⟨calm_error (fun _ he => by cases he), fun _ => h⟩)
      (fun _ => ⟨calm_error (fun _ he => by cases he), fun _ => h⟩) (fun hv hr => ?_)
    have hpos : 0 ≤ (holding v (s.value v) (.clip strength.value)).strength.value :=
      clip_nonneg strength.value
    refine ((h.answers_add hpos limit).and (h.ledger.add limit _)).mono ?_
    rintro p ⟨⟨hs', hanswer⟩, -, -, hedits, -⟩
    refine ⟨fun tag _ _ => ⟨calm_ok _, fun hl => ?_⟩, fun hok hnone => ?_, fun e he => ?_⟩
    · have hnot : p.1.edits.contains v = false := by
        rw [hedits]
        exact hv
      have hsame : demands (p.1.edits.insert v
          ⟨tag, holding v (s.value v) (.clip strength.value), s.value v⟩)
            p.1.constraints.entries = demands p.1.edits p.1.constraints.entries :=
        demands_congr (fun e _ => Constraint.current_insert hnot rfl)
      refine ⟨hl, ⟨hs'.idle.artificial, hs'.idle.journal, hs'.idle.infeasible⟩,
        ⟨?_, hs'.optimal.settled⟩, hs'.weights⟩
      dsimp only
      rw [hsame]
      exact hs'.optimal.toStanding.congr rfl rfl rfl rfl rfl
    · -- what has been added is on the list, so its tag is found
      obtain ⟨-, hm⟩ : p.2 = .ok () ∧ _ := hanswer.resolve_right (by simp [hok])
      have hcontains := OrderedMap.get?_eq_none_iff.mp hnone
      rw [OrderedMap.contains_eq_any_keys] at hcontains
      exact absurd (Constraint.beq_iff.mpr rfl) (List.any_eq_false.mp hcontains _ hm)
    · rcases hanswer with ⟨hok, -⟩ | hdup | ⟨-, hrequired⟩
      · rw [he] at hok
        cases hok
      · obtain rfl : e = .duplicateConstraint := Except.error.inj (he.symm.trans hdup)
        exact ⟨calm_error (fun _ h => by cases h), fun _ => hs'⟩
      · rw [show (holding v (s.value v) (.clip strength.value)).strength =
          .clip strength.value from rfl, hr] at hrequired
        cases hrequired
  exact ((h.ledger.addEdit limit v strength).and hkeep).mono (fun _ hp => ⟨hp.2.1, hp.2.2 hp.1⟩)

end Holding

end Solver

end Tether
