import Mathlib.Algebra.BigOperators.Group.List.Basic
import Mathlib.Algebra.Ring.Rat
import Mathlib.Data.List.Induction
import Tether.Constraint.Grounding
import Tether.Scalar.Rational

/-!
# What grounding asks and what it keeps

The callbacks of a grounding are two functions here, which write down what they
are asked.  One term is added by at most one question of each kind, the replacement
before the sample; a run over the terms asks the questions of all of them in order,
up to the first proxy whose replacement is a proxy, which ends it.

The concrete form evaluates to what the constraint does, where a proxy has the value
of its replacement and a constant term its sample.
-/

namespace Tether

section Asking

/-- What a callback is asked. -/
inductive Question
  /-- For the variable that replaces a proxy. -/
  | replacement (v : Variable)
  /-- For the current value of a variable. -/
  | sample (v : Variable)
deriving DecidableEq

/-- A computation that may halt and writes down its questions; those asked before
it halts remain. -/
abbrev Asking : Type → Type :=
  ExceptT Halt (StateM (List Question))

namespace Asking

variable {β γ : Type}

/-- Writes a question down and gives its answer. -/
def ask (question : Question) (answer : β) : Asking β := do
  modify (· ++ [question])
  pure answer

/-- What comes of a computation, and all questions after those asked before. -/
def outcome (x : Asking β) (asked : List Question) : Except Halt β × List Question :=
  x.run.run asked

@[simp] theorem outcome_pure (b : β) (asked : List Question) :
    outcome (pure b) asked = (.ok b, asked) :=
  rfl

@[simp] theorem outcome_throw (halt : Halt) (asked : List Question) :
    outcome (throw halt : Asking β) asked = (.error halt, asked) :=
  rfl

@[simp] theorem outcome_ask (question : Question) (answer : β) (asked : List Question) :
    outcome (ask question answer) asked = (.ok answer, asked ++ [question]) :=
  rfl

theorem outcome_bind (x : Asking β) (f : β → Asking γ) (asked : List Question) :
    outcome (x >>= f) asked =
      match outcome x asked with
      | (.ok b, asked) => outcome (f b) asked
      | (.error halt, asked) => (.error halt, asked) := by
  change (ExceptT.bindCont f (outcome x asked).1).run (outcome x asked).2 = _
  rcases outcome x asked with ⟨_ | _, asked⟩ <;> rfl

@[simp] theorem outcome_map (f : β → γ) (x : Asking β) (asked : List Question) :
    outcome (f <$> x) asked = ((outcome x asked).1.map f, (outcome x asked).2) := by
  rw [map_eq_pure_bind, outcome_bind]
  rcases outcome x asked with ⟨_ | _, asked⟩ <;> rfl

end Asking

end Asking

section Terms

variable {α : Type} (ρ : Variable → Variable) (κ : Variable → α)

/-- The variable itself, or what replaces it if it is a proxy. -/
def Variable.through (v : Variable) : Variable :=
  if v.isProxy then ρ v else v

/-- Whether the term refers to a proxy whose replacement is a proxy. -/
def Term.offends (t : Term α) : Bool :=
  t.unknown.isProxy && (ρ t.unknown).isProxy

/-- What is asked about a term. -/
def Term.questions (t : Term α) : List Question :=
  (if t.unknown.isProxy then [.replacement t.unknown] else []) ++
    (if t.isConstant then [.sample (t.unknown.through ρ)] else [])

/-- The targets that replace the proxies of terms, as often as they do. -/
def replacing (terms : List (Term α)) : List Target :=
  (terms.filter (·.unknown.isProxy)).map (fun t => (ρ t.unknown).target)

variable [Scalar α]

/-- What a term adds to the value of an expression, if proxies are read through
their replacements and constant terms take their samples. -/
def Term.reading (ν : Variable → α) (t : Term α) : α :=
  t.coefficient * if t.isConstant then κ (t.unknown.through ρ) else ν (t.unknown.through ρ)

/-- What adding a term makes of a concrete expression. -/
def Grounded.with (g : Grounded α) (t : Term α) : Grounded α :=
  let g := if t.unknown.isProxy then g.noteTarget (ρ t.unknown).target else g
  if t.isConstant then g.addConstant (t.coefficient * κ (t.unknown.through ρ))
  else g.push (.symbolic (t.unknown.through ρ) t.coefficient)

end Terms

section Running

open Asking

variable {α : Type} [Scalar α] {ρ : Variable → Variable} {κ : Variable → α}

/-- Adds a term, with functions as callbacks. -/
def Grounded.addAsking (ρ : Variable → Variable) (κ : Variable → α) :
    Grounded α → Term α → Asking (Grounded α) :=
  Grounded.add (fun v => ask (.replacement v) (ρ v)) (fun v => ask (.sample v) (κ v))

/-- A proxy that is replaced by a proxy ends the grounding at its replacement. -/
theorem outcome_add_of_offends {t : Term α} (h : t.offends ρ = true) (g : Grounded α)
    (asked : List Question) :
    outcome (g.addAsking ρ κ t) asked =
      (.error (.breach (.proxyForProxy t.unknown (ρ t.unknown))),
        asked ++ [.replacement t.unknown]) := by
  obtain ⟨hproxy, hagain⟩ := Bool.and_eq_true_iff.mp h
  simp [Grounded.addAsking, Grounded.add, Grounded.concrete, outcome_bind, hproxy, hagain]

/-- Any other term is added, and its questions are asked. -/
theorem outcome_add {t : Term α} (h : t.offends ρ = false) (g : Grounded α)
    (asked : List Question) :
    outcome (g.addAsking ρ κ t) asked = (.ok (g.with ρ κ t), asked ++ t.questions ρ) := by
  cases hproxy : t.unknown.isProxy with
  | true =>
      have hagain : (ρ t.unknown).isProxy = false := by simpa [Term.offends, hproxy] using h
      cases hconst : t.isConstant <;>
        simp [Grounded.addAsking, Grounded.add, Grounded.concrete, Grounded.with, Term.questions,
          Variable.through, outcome_bind, Except.map, hproxy, hagain, hconst]
  | false =>
      cases hconst : t.isConstant <;>
        simp [Grounded.addAsking, Grounded.add, Grounded.concrete, Grounded.with, Term.questions,
          Variable.through, Except.map, hproxy, hconst]

theorem outcome_foldlM {l : List (Term α)} (h : ∀ t ∈ l, t.offends ρ = false) (g : Grounded α)
    (asked : List Question) :
    outcome (l.foldlM (Grounded.addAsking ρ κ) g) asked =
      (.ok (l.foldl (Grounded.with ρ κ) g), asked ++ l.flatMap (Term.questions ρ)) := by
  induction l generalizing g asked with
  | nil => simp
  | cons t rest ih =>
      rw [List.forall_mem_cons] at h
      rw [List.foldlM_cons, outcome_bind, outcome_add h.1]
      dsimp only
      rw [ih h.2, List.append_assoc]
      rfl

/-- Terms run up to the first one that offends. -/
theorem outcome_foldlM_of_offends {before after : List (Term α)} {t : Term α}
    (h : ∀ b ∈ before, b.offends ρ = false) (ht : t.offends ρ = true) (g : Grounded α)
    (asked : List Question) :
    outcome ((before ++ t :: after).foldlM (Grounded.addAsking ρ κ) g) asked =
      (.error (.breach (.proxyForProxy t.unknown (ρ t.unknown))),
        asked ++ before.flatMap (Term.questions ρ) ++ [.replacement t.unknown]) := by
  rw [List.foldlM_append, outcome_bind, outcome_foldlM h]
  dsimp only
  rw [List.foldlM_cons, outcome_bind, outcome_add_of_offends ht]

end Running

section Building

variable {α : Type} {ρ : Variable → Variable}

theorem expression_noteTarget (g : Grounded α) (target : Target) :
    (g.noteTarget target).expression = g.expression := by
  unfold Grounded.noteTarget
  split <;> rfl

theorem replacing_concat (l : List (Term α)) (t : Term α) :
    replacing ρ (l ++ [t]) =
      replacing ρ l ++ if t.unknown.isProxy then [(ρ t.unknown).target] else [] := by
  cases hproxy : t.unknown.isProxy <;> simp [replacing, hproxy]

/-- No term that was added refers to a proxy, unless a proxy replaced one. -/
theorem isProxy_through {t : Term α} (h : t.offends ρ = false) :
    (t.unknown.through ρ).isProxy = false := by
  cases hproxy : t.unknown.isProxy with
  | true => simpa [Variable.through, Term.offends, hproxy] using h
  | false => simp [Variable.through, hproxy]

variable [Scalar α] {κ : Variable → α}

theorem targets_with (g : Grounded α) (t : Term α) :
    (g.with ρ κ t).targets =
      if t.unknown.isProxy then (g.noteTarget (ρ t.unknown).target).targets else g.targets := by
  cases hproxy : t.unknown.isProxy <;> cases hconst : t.isConstant <;>
    simp [Grounded.with, Grounded.addConstant, Grounded.push, hproxy, hconst]

theorem terms_with (g : Grounded α) (t : Term α) :
    (g.with ρ κ t).expression.terms = g.expression.terms ++
      if t.isConstant then [] else [.symbolic (t.unknown.through ρ) t.coefficient] := by
  cases hproxy : t.unknown.isProxy <;> cases hconst : t.isConstant <;>
    simp [Grounded.with, Grounded.addConstant, Grounded.push, Expression.push,
      expression_noteTarget, hproxy, hconst]

theorem constant_with (g : Grounded α) (t : Term α) :
    (g.with ρ κ t).expression.constant =
      if t.isConstant then g.expression.constant + t.coefficient * κ (t.unknown.through ρ)
      else g.expression.constant := by
  cases hproxy : t.unknown.isProxy <;> cases hconst : t.isConstant <;>
    simp [Grounded.with, Grounded.addConstant, Grounded.push, Expression.push,
      expression_noteTarget, hproxy, hconst]

/-- The targets are those that replace proxies, each once, in order of first use. -/
theorem targets_foldl_with (l : List (Term α)) (e : Expression α) :
    (l.foldl (Grounded.with ρ κ) ⟨e, []⟩).targets = (replacing ρ l).eraseDups := by
  induction l using List.reverseRecOn with
  | nil => rfl
  | append_singleton before t ih =>
      rw [List.foldl_concat, targets_with, Grounded.noteTarget, ih, replacing_concat,
        List.eraseDups_append]
      cases t.unknown.isProxy with
      | false => simp
      | true =>
          by_cases hmem : (ρ t.unknown).target ∈ replacing ρ before
          · simp [ih, hmem, List.removeAll]
          · simp [hmem, List.removeAll, List.eraseDups_cons]

/-- The terms of the concrete form are those that are not constant. -/
theorem terms_foldl_with (l : List (Term α)) (g : Grounded α) :
    (l.foldl (Grounded.with ρ κ) g).expression.terms = g.expression.terms ++
      (l.filter (!·.isConstant)).map (fun t => .symbolic (t.unknown.through ρ) t.coefficient) := by
  induction l generalizing g with
  | nil => simp
  | cons t rest ih =>
      rw [List.foldl_cons, ih, terms_with, List.append_assoc]
      cases hconst : t.isConstant <;> simp [hconst]

/-- A concrete form has no proxies and no constant terms. -/
theorem concrete_foldl_with {l : List (Term α)} (h : ∀ t ∈ l, t.offends ρ = false) (x : α)
    {t : Term α} (ht : t ∈ (l.foldl (Grounded.with ρ κ) ⟨.ofConstant x, []⟩).expression.terms) :
    t.unknown.isProxy = false ∧ t.isConstant = false := by
  rw [terms_foldl_with] at ht
  obtain ⟨u, hu, rfl⟩ := List.mem_map.mp ht
  exact ⟨isProxy_through (h u (List.mem_of_mem_filter hu)), rfl⟩

end Building

section Meaning

variable {ρ : Variable → Variable} {κ ν : Variable → Rat}

theorem Expression.sumTerms_eq_sum (ν : Variable → Rat) (l : List (Term Rat)) :
    Expression.sumTerms ν l = (l.map (fun t => t.coefficient * ν t.unknown)).sum := by
  induction l with
  | nil => rfl
  | cons t rest ih => rw [Expression.sumTerms, ih, List.map_cons, List.sum_cons]

/-- A term adds its reading to the value. -/
theorem eval_with (g : Grounded Rat) (t : Term Rat) :
    (g.with ρ κ t).expression.eval ν = g.expression.eval ν + t.reading ρ κ ν := by
  unfold Expression.eval Term.reading
  rw [terms_with, constant_with, Expression.sumTerms_eq_sum, Expression.sumTerms_eq_sum,
    List.map_append, List.sum_append]
  cases t.isConstant with
  | true => simpa using (add_assoc _ _ _).symm
  | false => simpa [Term.symbolic] using add_right_comm _ _ _

theorem eval_foldl_with (l : List (Term Rat)) (g : Grounded Rat) :
    (l.foldl (Grounded.with ρ κ) g).expression.eval ν =
      g.expression.eval ν + (l.map (Term.reading ρ κ ν)).sum := by
  induction l generalizing g with
  | nil => simp
  | cons t rest ih => rw [List.foldl_cons, ih, eval_with, List.map_cons, List.sum_cons, add_assoc]

end Meaning

section Results

open Asking

/-- What comes of grounding a constraint by two functions, with the questions that
they are asked. -/
def Constraint.groundAsking {α : Type} [Scalar α] (ρ : Variable → Variable) (κ : Variable → α)
    (c : Constraint α) : Except Halt (Constraint α) × List Question :=
  outcome (c.ground (fun v => ask (.replacement v) (ρ v)) (fun v => ask (.sample v) (κ v))) []

variable {α : Type} [Scalar α] {ρ : Variable → Variable} (κ : Variable → α) {c : Constraint α}

theorem groundAsking_eq (ρ : Variable → Variable) (c : Constraint α) :
    c.groundAsking ρ κ =
      let built := outcome (c.expression.terms.foldlM (Grounded.addAsking ρ κ)
        ⟨.ofConstant c.expression.constant, []⟩) []
      (built.1.map (fun g => { c with
        name := c.name ++ "@" ++ ",".intercalate (g.targets.map Target.text)
        expression := g.expression }), built.2) :=
  outcome_map _ _ _

theorem groundAsking_of_forall (h : ∀ t ∈ c.expression.terms, t.offends ρ = false) :
    ∃ d, c.groundAsking ρ κ = (.ok d, c.expression.terms.flatMap (Term.questions ρ)) ∧
      d.relation = c.relation ∧ d.strength = c.strength ∧
      d.name = c.name ++ "@" ++
        ",".intercalate ((replacing ρ c.expression.terms).eraseDups.map Target.text) ∧
      d.expression = (c.expression.terms.foldl (Grounded.with ρ κ)
        ⟨.ofConstant c.expression.constant, []⟩).expression := by
  rw [groundAsking_eq, outcome_foldlM h]
  refine ⟨_, rfl, rfl, rfl, ?_, rfl⟩
  dsimp only
  rw [targets_foldl_with]

theorem groundAsking_of_offends {before after : List (Term α)} {t : Term α}
    (hterms : c.expression.terms = before ++ t :: after)
    (h : ∀ b ∈ before, b.offends ρ = false) (ht : t.offends ρ = true) :
    c.groundAsking ρ κ = (.error (.breach (.proxyForProxy t.unknown (ρ t.unknown))),
      before.flatMap (Term.questions ρ) ++ [.replacement t.unknown]) := by
  rw [groundAsking_eq, hterms, outcome_foldlM_of_offends h ht]
  rfl

/-- Without a proxy that is replaced by a proxy there is a concrete form, and it means
what the constraint does. -/
theorem exists_concrete_form {c : Constraint Rat} (κ : Variable → Rat)
    (h : ∀ t ∈ c.expression.terms, t.offends ρ = false) :
    ∃ d, c.groundAsking ρ κ = (.ok d, c.expression.terms.flatMap (Term.questions ρ)) ∧
      d.hasProxies = false ∧ (∀ t ∈ d.expression.terms, t.isConstant = false) ∧
      d.relation = c.relation ∧ d.strength = c.strength ∧
      (∀ ν, d.expression.eval ν =
        (c.expression.terms.map (Term.reading ρ κ ν)).sum + c.expression.constant) ∧
      d.name = c.name ++ "@" ++
        ",".intercalate ((replacing ρ c.expression.terms).eraseDups.map Target.text) := by
  obtain ⟨d, hground, hrelation, hstrength, hname, hbuilt⟩ := groundAsking_of_forall κ h
  have hconcrete : ∀ t ∈ d.expression.terms, t.unknown.isProxy = false ∧ t.isConstant = false :=
    fun t ht => concrete_foldl_with h _ (hbuilt ▸ ht)
  refine ⟨d, hground, ?_, fun t ht => (hconcrete t ht).2, hrelation, hstrength, fun ν => ?_, hname⟩
  · exact List.any_eq_false.mpr (fun t ht => by simp [(hconcrete t ht).1])
  · rw [hbuilt, eval_foldl_with, add_comm]
    exact congrArg _ (zero_add c.expression.constant)

/-- A grounding halts exactly if a proxy of the constraint is replaced by a proxy; it
then reports the first such proxy, after the questions about the terms before it.
Otherwise the concrete form has neither proxies nor constant terms, relates to zero
like the constraint and as strongly, and evaluates to the sum of the readings of the
terms and the constant; every proxy is asked for once per term, every constant term
is sampled once, as what has replaced its variable, and in the order of the terms;
and the name ends in the targets that replaced proxies, each once. -/
theorem grounding_preserves_meaning (ρ : Variable → Variable) (κ : Variable → Rat)
    (c : Constraint Rat) :
    ((∃ halt, (c.groundAsking ρ κ).1 = .error halt) ↔
      ∃ t ∈ c.expression.terms, t.unknown.isProxy = true ∧ (ρ t.unknown).isProxy = true) ∧
    (∀ halt, (c.groundAsking ρ κ).1 = .error halt →
      ∃ before t after, c.expression.terms = before ++ t :: after ∧
        (∀ b ∈ before, b.unknown.isProxy = true → (ρ b.unknown).isProxy = false) ∧
        halt = .breach (.proxyForProxy t.unknown (ρ t.unknown)) ∧
        (c.groundAsking ρ κ).2 =
          before.flatMap (Term.questions ρ) ++ [.replacement t.unknown]) ∧
    ∀ d, (c.groundAsking ρ κ).1 = .ok d →
      d.hasProxies = false ∧ (∀ t ∈ d.expression.terms, t.isConstant = false) ∧
      d.relation = c.relation ∧ d.strength = c.strength ∧
      (∀ ν, d.expression.eval ν =
        (c.expression.terms.map (Term.reading ρ κ ν)).sum + c.expression.constant) ∧
      (c.groundAsking ρ κ).2 = c.expression.terms.flatMap (Term.questions ρ) ∧
      d.name = c.name ++ "@" ++
        ",".intercalate ((replacing ρ c.expression.terms).eraseDups.map Target.text) := by
  cases hfind : c.expression.terms.find? (Term.offends ρ) with
  | none =>
      have hnone : ∀ t ∈ c.expression.terms, t.offends ρ = false := by
        simpa using List.find?_eq_none.mp hfind
      obtain ⟨e, hground, hproxies, hconstants, hrelation, hstrength, hmeaning, hname⟩ :=
        exists_concrete_form κ hnone
      rw [hground]
      refine ⟨⟨?_, ?_⟩, ?_, ?_⟩
      · rintro ⟨halt, hhalt⟩
        cases hhalt
      · rintro ⟨t, ht, hproxy, hagain⟩
        have hsound := hnone t ht
        rw [Term.offends, hproxy, hagain] at hsound
        cases hsound
      · rintro halt hhalt
        cases hhalt
      · rintro d hd
        obtain rfl : e = d := Except.ok.inj hd
        exact ⟨hproxies, hconstants, hrelation, hstrength, hmeaning, rfl, hname⟩
  | some t =>
      obtain ⟨hoffends, before, after, hterms, hbefore⟩ := List.find?_eq_some_iff_append.mp hfind
      have hsound : ∀ b ∈ before, b.offends ρ = false := by simpa using hbefore
      have hground := groundAsking_of_offends κ hterms hsound hoffends
      rw [hground]
      refine ⟨⟨fun _ => ⟨t, ?_, Bool.and_eq_true_iff.mp hoffends⟩, fun _ => ⟨_, rfl⟩⟩, ?_, ?_⟩
      · rw [hterms]
        exact List.mem_append_right _ List.mem_cons_self
      · rintro halt hhalt
        refine ⟨before, t, after, hterms, fun b hb hproxy => ?_, (Except.error.inj hhalt).symm, rfl⟩
        simpa [Term.offends, hproxy] using hsound b hb
      · rintro d hd
        cases hd

/-- A drag of an entity at 40 by a touch at 100: both are sampled, the touch as what
replaces the proxy. -/
example :
    let layer : Variable := ⟨.entity ⟨9⟩, .positionX⟩
    let finger : Variable := ⟨.proxy 0, .positionX⟩
    let drag : Constraint Rat := ⟨"drag", ⟨[.symbolic layer 1, .symbolic finger (-1),
      .sampled layer (-1), .sampled finger 1], 0⟩, .equalTo, .required⟩
    let result := drag.groundAsking (fun v => v.withTarget (.touch ⟨5⟩))
      (fun v => if v = layer then 40 else 100)
    result.1.toOption.map (fun d => (d.name, d.expression.constant)) =
        some ("drag@touch:5", 60) ∧
      result.2 = [.replacement finger, .sample layer, .replacement finger,
        .sample ⟨.touch ⟨5⟩, .positionX⟩] := by
  decide +kernel

end Results

end Tether
