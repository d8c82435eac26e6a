import Tether.Proofs.Stored.Shapes
import Tether.Stored.Touch

/-!
# Stored values return

Variables, constraints, settings and events are read back from their text as they were
written, as far as their numbers are.  A numeral is only ever a part of a stored form,
so nothing is asked of the numbers but that each of them returns by itself.

A term that does not say whether it is sampled is read as not sampled, and settings
that do not say a value are read with its standard value.  Everything else is read as
if nothing had been left out.
-/

namespace Tether

open Stored

section Variables

instance : WellFormed Property where
  formed p := formed_encodeName p

instance : WellFormed EntityHandle where
  formed h := WellFormed.formed h.value

instance : WellFormed TouchId where
  formed id := WellFormed.formed id.value

instance : WellFormed Target where
  formed t := formed_choice (by cases t <;> simp [Target.toChoice, WellFormed.formed])

instance : WellFormed Variable where
  formed v := formed_record (by simp [WellFormed.formed])

theorem restores_property (p : Property) : Restores p :=
  decodeName_encodeName (by cases p <;> rfl)

theorem restores_entityHandle (h : EntityHandle) : Restores h :=
  congrArg (Option.map EntityHandle.mk) (restores_uint64 h.value)

theorem restores_touchId (id : TouchId) : Restores id :=
  congrArg (Option.map TouchId.mk) (restores_uint64 id.value)

theorem restores_target (t : Target) : Restores t := by
  refine (Choice.bind_toJson t.toChoice).trans ?_
  cases t with
  | entity handle => exact congrArg (Option.map Target.entity) (restores_entityHandle handle)
  | touch id => exact congrArg (Option.map Target.touch) (restores_touchId id)
  | proxy index => exact congrArg (Option.map Target.proxy) (restores_uint32 index)

theorem restores_variable (v : Variable) : Restores v := by
  have htarget : decode (encode v.target) = some v.target := restores_target v.target
  have hproperty : decode (encode v.property) = some v.property := restores_property v.property
  refine (Fields.bind_record (by simp) (by simp)).trans ?_
  simp [Fields.required, Fields.get?, htarget, hproperty]

end Variables

section Expressions

variable {α : Type} [Stored α]

instance [WellFormed α] : WellFormed (Term α) where
  formed t := formed_record (by simp [WellFormed.formed])

instance [WellFormed α] : WellFormed (Expression α) where
  formed e := formed_record (by simp [WellFormed.formed])

/-- The numbers of an expression. -/
def Expression.numbers (e : Expression α) : List α :=
  e.constant :: e.terms.map Term.coefficient

/-- The stored form of an expression whose terms at some places do not say whether
they are sampled. -/
def Expression.storedWithout (out : Nat → Bool) (e : Expression α) : Json :=
  record [("terms", .array (e.terms.mapIdx fun i t =>
      if out i then (encode t).without ["is_constant"] else encode t)),
    ("constant", encode e.constant)]

/-- The expression with the terms at some places not sampled. -/
def Expression.plain (out : Nat → Bool) (e : Expression α) : Expression α :=
  { e with terms := e.terms.mapIdx fun i t =>
      if out i then { t with isConstant := false } else t }

variable {t : Term α} {e : Expression α}

theorem restores_term (h : Restores t.coefficient) : Restores t := by
  have hunknown : decode (encode t.unknown) = some t.unknown := restores_variable t.unknown
  have hcoefficient : decode (encode t.coefficient) = some t.coefficient := h
  have hconstant : decode (encode t.isConstant) = some t.isConstant := restores_bool t.isConstant
  refine (Fields.bind_record (by simp) (by simp)).trans ?_
  simp [Fields.required, Fields.optional, Fields.get?, hunknown, hcoefficient,
    hconstant]

/-- A term that does not say whether it is sampled is not. -/
theorem decode_term_without (h : Restores t.coefficient) :
    decode ((encode t).without ["is_constant"]) = some { t with isConstant := false } := by
  have hunknown : decode (encode t.unknown) = some t.unknown := restores_variable t.unknown
  have hcoefficient : decode (encode t.coefficient) = some t.coefficient := h
  refine (Fields.bind_without (by simp) (by simp) _).trans ?_
  simp [Fields.required, Fields.optional, Fields.get?, hunknown, hcoefficient]

theorem restores_coefficient (h : ∀ x ∈ e.numbers, Restores x) (ht : t ∈ e.terms) :
    Restores t.coefficient :=
  h _ (List.mem_cons_of_mem _ (List.mem_map_of_mem ht))

theorem restores_expression (h : ∀ x ∈ e.numbers, Restores x) : Restores e := by
  have hterms : decode (encode e.terms) = some e.terms :=
    restores_list fun t ht => restores_term (restores_coefficient h ht)
  have hconstant : decode (encode e.constant) = some e.constant := h _ List.mem_cons_self
  refine (Fields.bind_record (by simp) (by simp)).trans ?_
  simp [Fields.required, Fields.get?, hterms, hconstant]

/-- Terms that do not say whether they are sampled are not, and the others are what
they were. -/
theorem decode_storedWithout (h : ∀ x ∈ e.numbers, Restores x) (out : Nat → Bool) :
    decode (e.storedWithout out) = some (e.plain out) := by
  have hterms : decode (.array (e.terms.mapIdx fun i t =>
      if out i then (encode t).without ["is_constant"] else encode t)) =
        some (e.plain out).terms := by
    refine decodeItems_mapIdx fun i t ht => ?_
    have hcoefficient := restores_coefficient h ht
    cases out i with
    | false => exact restores_term hcoefficient
    | true => exact decode_term_without hcoefficient
  have hconstant : decode (encode e.constant) = some e.constant := h _ List.mem_cons_self
  refine (Fields.bind_record (by simp) (by simp)).trans ?_
  simp [Fields.required, Fields.get?, hterms, hconstant, Expression.plain]

theorem formed_storedWithout [WellFormed α] (e : Expression α) (out : Nat → Bool) :
    (e.storedWithout out).Formed := by
  have hterms : (Json.array (e.terms.mapIdx fun i t =>
      if out i then (encode t).without ["is_constant"] else encode t)).Formed := by
    refine Json.itemsFormed_iff.mpr fun j hj => ?_
    obtain ⟨i, hi, rfl⟩ := List.mem_mapIdx.mp hj
    have hterm : (encode e.terms[i]).Formed := WellFormed.formed e.terms[i]
    cases out i with
    | false => exact hterm
    | true => exact formed_without hterm
  exact formed_record (by simpa [WellFormed.formed] using hterms)

end Expressions

section Constraints

variable {α : Type} [Stored α]

instance : WellFormed Relation where
  formed r := formed_encodeName r

instance [WellFormed α] : WellFormed (Strength α) where
  formed s := WellFormed.formed s.value

instance [WellFormed α] : WellFormed (Constraint α) where
  formed c := formed_record (by simp [WellFormed.formed])

/-- The numbers of a constraint. -/
def Constraint.numbers (c : Constraint α) : List α :=
  c.strength.value :: c.expression.numbers

/-- The stored form of a constraint whose terms at some places do not say whether they
are sampled. -/
def Constraint.storedWithout (out : Nat → Bool) (c : Constraint α) : Json :=
  record [("name", encode c.name), ("expression", c.expression.storedWithout out),
    ("relation", encode c.relation), ("strength", encode c.strength)]

/-- The constraint with the terms at some places not sampled. -/
def Constraint.plain (out : Nat → Bool) (c : Constraint α) : Constraint α :=
  { c with expression := c.expression.plain out }

variable {c : Constraint α}

theorem restores_relation (r : Relation) : Restores r :=
  decodeName_encodeName (by cases r <;> rfl)

theorem restores_strength {s : Strength α} (h : Restores s.value) : Restores s :=
  congrArg (Option.map Strength.mk) h

theorem decode_constraint {j : Json} {e : Expression α} (h : Restores c.strength.value)
    (hj : decode j = some e) :
    decode (record [("name", encode c.name), ("expression", j), ("relation", encode c.relation),
      ("strength", encode c.strength)]) = some { c with expression := e } := by
  have hname : decode (encode c.name) = some c.name := restores_string c.name
  have hrelation : decode (encode c.relation) = some c.relation := restores_relation c.relation
  have hstrength : decode (encode c.strength) = some c.strength := restores_strength h
  refine (Fields.bind_record (by simp) (by simp)).trans ?_
  simp [Fields.required, Fields.get?, hname, hj, hrelation, hstrength]

theorem restores_constraint (h : ∀ x ∈ c.numbers, Restores x) : Restores c :=
  decode_constraint (h _ List.mem_cons_self)
    (restores_expression fun x hx => h x (List.mem_cons_of_mem _ hx))

theorem decode_constraint_storedWithout (h : ∀ x ∈ c.numbers, Restores x) (out : Nat → Bool) :
    decode (c.storedWithout out) = some (c.plain out) :=
  decode_constraint (h _ List.mem_cons_self)
    (decode_storedWithout (fun x hx => h x (List.mem_cons_of_mem _ hx)) out)

theorem formed_constraint_storedWithout [WellFormed α] (c : Constraint α) (out : Nat → Bool) :
    (c.storedWithout out).Formed :=
  formed_record (by simp [WellFormed.formed, formed_storedWithout])

end Constraints

section Settings

variable {α : Type} [Scalar α] [Stored α]

instance [WellFormed α] : WellFormed (Settings α) where
  formed s := formed_record (by simp [WellFormed.formed])

/-- The settings with standard values for some fields. -/
def Settings.standardAt (out : List String) (s : Settings α) : Settings α :=
  ⟨if "touch_strength" ∈ out then Settings.standard.touchStrength else s.touchStrength,
    if "collect_unused_variables" ∈ out then (Settings.standard : Settings α).collectUnused
    else s.collectUnused⟩

/-- Settings that do not say some values have the standard ones. -/
theorem decode_settings_without {s : Settings α} (h : Restores s.touchStrength.value)
    (out : List String) : decode ((encode s).without out) = some (s.standardAt out) := by
  have hstrength : decode (encode s.touchStrength) = some s.touchStrength := restores_strength h
  have hcollect : decode (encode s.collectUnused) = some s.collectUnused :=
    restores_bool s.collectUnused
  refine (Fields.bind_without (by simp) (by simp) out).trans ?_
  by_cases htouch : "touch_strength" ∈ out <;>
    by_cases hunused : "collect_unused_variables" ∈ out <;>
    simp [Fields.optional, Fields.get?, Settings.standardAt, htouch, hunused, hstrength,
      hcollect]

theorem restores_settings {s : Settings α} (h : Restores s.touchStrength.value) : Restores s := by
  have hstrength : decode (encode s.touchStrength) = some s.touchStrength := restores_strength h
  have hcollect : decode (encode s.collectUnused) = some s.collectUnused :=
    restores_bool s.collectUnused
  refine (Fields.bind_record (by simp) (by simp)).trans ?_
  simp [Fields.optional, Fields.get?, hstrength, hcollect]

end Settings

section Events

variable {α : Type} [Stored α]

instance : WellFormed FlushOutcome where
  formed o := formed_encodeName o

instance [WellFormed α] : WellFormed (TouchPoint α) where
  formed p := formed_record (by simp [WellFormed.formed])

instance [WellFormed α] : WellFormed (EditChange α) where
  formed change := formed_choice (by cases change <;> simp [EditChange.toChoice, WellFormed.formed])

/-- The numbers of a change of an edit variable. -/
def EditChange.numbers : EditChange α → List α
  | added strength => [strength.value]
  | suggested x => [x]
  | removed => []

theorem restores_flushOutcome (o : FlushOutcome) : Restores o :=
  decodeName_encodeName (by cases o <;> rfl)

theorem restores_touchPoint {p : TouchPoint α} (hx : Restores p.x) (hy : Restores p.y) :
    Restores p := by
  have hid : decode (encode p.id) = some p.id := restores_touchId p.id
  have hx' : decode (encode p.x) = some p.x := hx
  have hy' : decode (encode p.y) = some p.y := hy
  refine (Fields.bind_record (by simp) (by simp)).trans ?_
  simp [Fields.required, Fields.get?, hid, hx', hy']

theorem restores_editChange {change : EditChange α} (h : ∀ x ∈ change.numbers, Restores x) :
    Restores change := by
  refine (Choice.bind_toJson change.toChoice).trans ?_
  cases change with
  | added strength =>
      have hstrength := restores_strength (h _ List.mem_cons_self)
      exact congrArg (Option.map EditChange.added) hstrength
  | suggested x => exact congrArg (Option.map EditChange.suggested) (h x List.mem_cons_self)
  | removed => rfl

end Events

section Returning

/-- Every kind of stored value returns from its text, if its numbers are of a class
whose members return, such as the finite numbers.  Terms that do not say whether they
are sampled are read as not sampled, settings are read with the standard value of what
they do not say, and nothing else changes. -/
theorem stored_values_return {P : Binary64 → Prop} (hP : ∀ x, P x → Returns x) :
    (∀ v : Variable, Returns v) ∧
    (∀ p : Property, Returns p) ∧
    (∀ r : Relation, Returns r) ∧
    (∀ o : FlushOutcome, Returns o) ∧
    (∀ s : Strength Binary64, P s.value → Returns s) ∧
    (∀ t : Term Binary64, P t.coefficient → Returns t ∧
      read? ((encode t).without ["is_constant"]).text = some { t with isConstant := false }) ∧
    (∀ e : Expression Binary64, (∀ x ∈ e.numbers, P x) → Returns e ∧
      ∀ out, read? (e.storedWithout out).text = some (e.plain out)) ∧
    (∀ c : Constraint Binary64, (∀ x ∈ c.numbers, P x) → Returns c ∧
      ∀ out, read? (c.storedWithout out).text = some (c.plain out)) ∧
    (∀ s : Settings Binary64, P s.touchStrength.value → Returns s ∧
      ∀ out, read? ((encode s).without out).text = some (s.standardAt out)) ∧
    (∀ p : TouchPoint Binary64, P p.x → P p.y → Returns p) ∧
    ∀ change : EditChange Binary64, (∀ x ∈ change.numbers, P x) → Returns change := by
  have hnumber : ∀ x, P x → Restores x := fun x hx => returns_iff.mp (hP x hx)
  have hnumbers : ∀ xs : List Binary64, (∀ x ∈ xs, P x) → ∀ x ∈ xs, Restores x :=
    fun xs h x hx => hnumber x (h x hx)
  refine ⟨fun v => returns_iff.mpr (restores_variable v),
    fun p => returns_iff.mpr (restores_property p),
    fun r => returns_iff.mpr (restores_relation r),
    fun o => returns_iff.mpr (restores_flushOutcome o),
    fun s hs => returns_iff.mpr (restores_strength (hnumber _ hs)), ?term, ?expression,
    ?constraint, ?settings,
    fun p hx hy => returns_iff.mpr (restores_touchPoint (hnumber _ hx) (hnumber _ hy)),
    fun change h => returns_iff.mpr (restores_editChange (hnumbers _ h))⟩
  case term =>
    intro t ht
    have hcoefficient := hnumber _ ht
    refine ⟨returns_iff.mpr (restores_term hcoefficient), ?_⟩
    rw [read?_text (formed_without (WellFormed.formed t)), decode_term_without hcoefficient]
  case expression =>
    intro e he
    have hrestores := hnumbers _ he
    refine ⟨returns_iff.mpr (restores_expression hrestores), fun out => ?_⟩
    rw [read?_text (formed_storedWithout e out), decode_storedWithout hrestores out]
  case constraint =>
    intro c hc
    have hrestores := hnumbers _ hc
    refine ⟨returns_iff.mpr (restores_constraint hrestores), fun out => ?_⟩
    rw [read?_text (formed_constraint_storedWithout c out),
      decode_constraint_storedWithout hrestores out]
  case settings =>
    intro s hs
    have hstrength := hnumber _ hs
    refine ⟨returns_iff.mpr (restores_settings hstrength), fun out => ?_⟩
    rw [read?_text (formed_without (WellFormed.formed s)), decode_settings_without hstrength out]

/-- Numbers of every size, of which one has a long numeral and one is a negative zero. -/
def sampleNumbers : List Binary64 :=
  [⟨0x3FB999999999999A⟩, ⟨0x405E000000000000⟩, ⟨0xFE37E43C8800759C⟩, ⟨0x0000000000000001⟩,
    ⟨0x7FEFFFFFFFFFFFFF⟩, ⟨0x8000000000000000⟩]

/-- A constraint whose name has quotes, a backslash, a line break, a control character
and characters beyond those of one byte. -/
def sampleConstraint : Constraint Binary64 where
  name := "\"left\" \\ 2\n\x01 é → 🙂"
  expression :=
    ⟨[⟨⟨.entity ⟨18446744073709551615⟩, .positionX⟩, ⟨0x3FB999999999999A⟩, true⟩,
      ⟨⟨.proxy 4294967295, .opacity⟩, ⟨0xFE37E43C8800759C⟩, true⟩,
      ⟨⟨.touch ⟨0⟩, .anchorY⟩, ⟨0x8000000000000000⟩, false⟩], ⟨0x0000000000000001⟩⟩
  relation := .greaterOrEqual
  strength := ⟨⟨0x405E000000000000⟩⟩

theorem sampleConstraint_returns :
    Returns sampleConstraint ∧
      ∀ out, read? (sampleConstraint.storedWithout out).text =
        some (sampleConstraint.plain out) := by
  have hP : ∀ x ∈ sampleNumbers, Returns x := by
    intro x hx
    have hrestores : ∀ y ∈ sampleNumbers, (decode (encode y) : Option Binary64) = some y := by
      decide +kernel
    exact returns_iff.mpr (hrestores x hx)
  obtain ⟨-, -, -, -, -, -, -, hconstraint, -⟩ :=
    stored_values_return (P := (· ∈ sampleNumbers)) hP
  exact hconstraint sampleConstraint (by decide)

end Returning

end Tether
