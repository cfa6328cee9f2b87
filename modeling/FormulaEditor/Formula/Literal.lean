/-!
# Numeric literals

A numeric literal is a run of digits, optionally with a point and another run of digits after it,
and optionally with a minus sign in front.
-/

set_option autoImplicit false

namespace FormulaEditor

namespace Literal

/-- Whether a text is a non-empty run of digits. -/
def isDigits (text : List Char) : Bool :=
  !text.isEmpty && text.all Char.isDigit

/-- Whether a text is a numeric literal without a sign. -/
def isUnsigned (text : List Char) : Bool :=
  isDigits (text.takeWhile (· ≠ '.')) &&
    match text.dropWhile (· ≠ '.') with
    | [] => true
    | _ :: fraction => isDigits fraction

/-- A text without the minus sign it begins with. -/
def dropSign : List Char → List Char
  | '-' :: text => text
  | text => text

end Literal

/-- Whether a text is a numeric literal. -/
def isNumberLiteral (text : String) : Bool :=
  Literal.isUnsigned (Literal.dropSign text.toList)

end FormulaEditor
