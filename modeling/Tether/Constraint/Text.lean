import Tether.Constraint.Basic
import Tether.Decimal.Numeral

/-!
# The text of a constraint

One line: the name, the terms, the constant, the relation to zero and the
strength.  Numbers are written positionally; a sampled term ends in a prime.
-/

namespace Tether

/-- The text of a number in the text of a constraint. -/
def Binary64.text (x : Binary64) : String :=
  Decimal.Style.plain.text x

/-- The text of a term. -/
def Term.text (t : Term Binary64) : String :=
  t.coefficient.text ++ "*" ++ t.unknown.text ++ (if t.isConstant then "'" else "")

/-- The text of a constraint. -/
def Constraint.text (c : Constraint Binary64) : String :=
  c.name ++ ": " ++ " + ".intercalate (c.expression.terms.map Term.text)
    ++ " + " ++ c.expression.constant.text
    ++ " " ++ c.relation.sign ++ " 0 | " ++ c.strength.value.text

end Tether
