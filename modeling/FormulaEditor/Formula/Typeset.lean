import FormulaEditor.Error
import FormulaEditor.Formula.Basic
import FormulaEditor.Formula.Literal
import FormulaEditor.Text.Alphabetic

/-!
# Formulas which can be typeset

`Formula.typesettable` refuses the formulas which have no line: those with a wrong number of
operands, a number which is no literal, an identifier which cannot be typed, a degree outside of a
root, or a root other than a square root. `Formula.bindsPower` tells where a base needs brackets.
-/

set_option autoImplicit false

namespace FormulaEditor.Formula

mutual

/-- Checks that a formula can be written as a line. -/
def typesettable : Formula → Except ValueFault Unit
  | .number text => if isNumberLiteral text then .ok () else .error (.invalidNumber text)
  | .identifier letter =>
    if Text.isAlphabetic letter then .ok () else .error (.unsupportedIdentifier letter.toString)
  | .constant _ => .ok ()
  | .degree _ => .error .strayDegree
  | .apply .root [.degree value, radicand] =>
    if value.decimalValue.any (·.hasValue 2) then typesettable radicand else .error .notSquareRoot
  | .apply .root [radicand] => typesettable radicand
  | .apply .root _ => .error (.wrongOperands .root)
  | .apply op operands =>
    if op.takes operands.length then typesettableAll operands else .error (.wrongOperands op)

/-- Checks operands from left to right. -/
def typesettableAll : List Formula → Except ValueFault Unit
  | [] => .ok ()
  | operand :: operands => do
    typesettable operand
    typesettableAll operands

end

/-- Whether a power written directly after a formula has all of the formula as its base. -/
def bindsPower : Formula → Bool
  | .number text => text.toList.head? ≠ some '-'
  | .identifier _ | .constant _ => true
  | .apply .divide _ | .apply .root _ | .apply .abs _ | .apply .power _ => true
  | _ => false

end FormulaEditor.Formula
