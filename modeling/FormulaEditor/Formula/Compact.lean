import FormulaEditor.Formula.Basic

/-!
# The compact text of a formula

Functional notation: every application begins with the word `apply` and its operator's tag, and
numbers and identifiers are wrapped in `cn` and `ci`, as in `apply(plus, cn(1), ci(x))`. A formula
is written in front of the text which follows it.
-/

set_option autoImplicit false

namespace FormulaEditor.Formula

mutual

/-- The compact text of a formula, in front of the rest of a text. -/
def compactThen : Formula → List Char → List Char
  | .number text, rest => "cn(".toList ++ text.toList ++ ')' :: rest
  | .identifier letter, rest => "ci(".toList ++ letter :: ')' :: rest
  | .constant name, rest => name.tag.toList ++ rest
  | .degree value, rest => "degree(".toList ++ compactThen value (')' :: rest)
  | .apply op operands, rest =>
    "apply(".toList ++ op.tag.toList ++ compactOperandsThen operands (')' :: rest)

/-- The compact text of a list of operands, each after a comma, in front of the rest of a text. -/
def compactOperandsThen : List Formula → List Char → List Char
  | [], rest => rest
  | operand :: operands, rest =>
    ", ".toList ++ compactThen operand (compactOperandsThen operands rest)

end

/-- The compact text of a formula. -/
def compact (formula : Formula) : String :=
  String.ofList (formula.compactThen [])

end FormulaEditor.Formula
