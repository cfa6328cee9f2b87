import FormulaEditor.Error
import FormulaEditor.Formula.Basic
import FormulaEditor.Line.Fence
import FormulaEditor.Line.Glyph

/-!
# Tokens

A token is an item of a line after everything inside it has been read: a plain character, an
operand which was read on its own, or the exponent of a power. Operands and exponents carry their
faults with them, so that a fault counts only where the token is used.
-/

set_option autoImplicit false

namespace FormulaEditor

/-- What reading yields: a formula, or why there is none. -/
abbrev Outcome := Except Error Formula

/-- An item of a line whose inside has been read. -/
inductive Token
  | char (c : Char)
  /-- An operand which was read on its own: a fraction, a radical or a whole fence. -/
  | operand (value : Outcome)
  /-- The exponent which a superscript gives to the operand before it. -/
  | power (exponent : Outcome)

namespace Token

/-- The character which stands for a token where only characters count. -/
def precis : Token → Char
  | char c => c
  | operand _ => '%'
  | power _ => '^'

/-- The token of a plain character. One which stands for a composite symbol elsewhere is no
operand. -/
def ofChar (c : Char) : Token :=
  if c = '%' then .operand (.error (.cannotParse .mismatch))
  else if c = '^' then .power (.error (.cannotParse .mismatch))
  else .char c

/-- The decimal digit which a token is. -/
def digit? : Token → Option Char
  | char c => if c.isDigit then some c else none
  | _ => none

end Token

end FormulaEditor
