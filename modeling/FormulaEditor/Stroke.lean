import FormulaEditor.Error
import FormulaEditor.Text.Alphabetic

/-!
# Strokes

A stroke is what can be put into a line: a plain character, a bracket, a bar, or one of the
composite symbols with their empty expressions. Strokes come from a typed character
(`Stroke.ofChar`) or from a name typed after a command key (`Stroke.ofName`).
-/

set_option autoImplicit false

namespace FormulaEditor

/-- The side of a pair on which a bracket stands. -/
inductive Side
  | opening
  | closing
  deriving DecidableEq, Repr

/-- The bracket character of a side. -/
def Side.char : Side → Char
  | opening => '('
  | closing => ')'

/-- What can be put into a line. -/
inductive Stroke
  /-- A plain character. -/
  | atom (c : Char)
  | bracket (side : Side)
  /-- A bar of an absolute value. -/
  | bar
  /-- A fraction with an empty numerator and an empty denominator. -/
  | fraction
  /-- A superscript with an empty exponent. -/
  | superscript
  /-- A square root with an empty radicand. -/
  | radical
  deriving DecidableEq, Repr

namespace Stroke

/-- The stroke of a typed character. Letters of every script can be typed. -/
def ofChar (c : Char) : Except Error Stroke :=
  if c = '/' then .ok fraction
  else if c = '(' then .ok (bracket .opening)
  else if c = ')' then .ok (bracket .closing)
  else if c = '|' then .ok bar
  else if c = '^' then .ok superscript
  else if c = '.' ∨ c = '+' ∨ c = '-' ∨ c = '*' then .ok (atom c)
  else if c.isDigit || Text.isAlphabetic c then .ok (atom c)
  else .error (.unrecognizedInput c.toString)

/-- The stroke with a given name. -/
def ofName (name : String) : Except Error Stroke :=
  if name = "sqrt" then .ok radical
  else if name = "pi" then .ok (atom 'π')
  else if name = "infty" then .ok (atom '∞')
  else .error (.unrecognizedInput name)

end Stroke

end FormulaEditor
