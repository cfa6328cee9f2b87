import FormulaEditor.Error
import FormulaEditor.Formula.Basic

/-!
# The values which a text may denote

An operator takes a number of operands of its own, and a degree may only stand as the first of the
two operands of a root. `Formula.check` finds the outermost, leftmost place where a formula breaks
this.
-/

set_option autoImplicit false

namespace FormulaEditor

/-- Whether an operator can be applied to a list of operands. The radicand of a root is no degree,
and of two operands the first is one. -/
def Operator.fits (op : Operator) (operands : List Formula) : Bool :=
  match op, operands with
  | .root, [.degree _, radicand] | .root, [radicand] => !radicand.isDegree
  | .root, _ => false
  | op, operands => op.takes operands.length

namespace Formula

mutual

/-- Checks the operands of every application, and that every degree belongs to a root. -/
def check : Formula → Except ValueFault Unit
  | .number _ | .identifier _ | .constant _ => .ok ()
  | .degree _ => .error .strayDegree
  | .apply op operands =>
    if op.fits operands then checkOperands op operands else .error (.wrongOperands op)

/-- Checks the operands of an operator from left to right. -/
def checkOperands (op : Operator) : List Formula → Except ValueFault Unit
  | [] => .ok ()
  | .degree value :: operands => do
    if op = .root then check value else .error .strayDegree
    checkOperands op operands
  | operand :: operands => do
    check operand
    checkOperands op operands

end

end Formula

end FormulaEditor
