import FormulaEditor.Formula.Reading.Compact
import FormulaEditor.Formula.Reading.MathML
import FormulaEditor.Formula.Readable

/-!
# Formulas from text

A text is read as MathML if its first character that is not blank is `<`, and in compact form
otherwise. Nothing but blanks may follow the value, and the value is checked after it has been
read.
-/

set_option autoImplicit false

namespace FormulaEditor.Formula

open Text Reading

/-- Reads a formula in one of the two forms, without checking it. -/
def readForm (text : List Char) : Except Stop Formula := do
  let (value, rest) ← if (skipBlanks text).head? = some '<' then Reading.mathml text
    else Reading.compact text
  match skipBlanks rest with
  | [] => return value
  | rest => .error (.misread .trailingText rest)

/-- The formula which a text denotes. -/
def ofText (text : String) : Except Error Formula :=
  match readForm text.toList with
  | .error stop => .error (.invalidValue (stop.fault text.toList))
  | .ok value => match value.check with
    | .error fault => .error (.invalidValue fault)
    | .ok () => .ok value

end FormulaEditor.Formula
