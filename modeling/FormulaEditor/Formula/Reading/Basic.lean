import FormulaEditor.Error
import FormulaEditor.Formula.Basic
import FormulaEditor.Formula.Literal
import FormulaEditor.Text.Alphabetic
import FormulaEditor.Text.Blank

/-!
# Steps of reading

Every step takes the text still to be read and returns what is left of it. A step which stops says
what is wrong and keeps the text in front of it, so the place of the fault is the number of
characters read before it.
-/

set_option autoImplicit false

namespace FormulaEditor.Reading

open Text

/-- Why reading stopped. -/
inductive Stop
  /-- The text cannot go on as it does from here. -/
  | misread (what : Misreading) (rest : List Char)
  /-- What was read is no value. -/
  | refused (fault : ValueFault)
  deriving DecidableEq, Repr

/-- The fault of a value whose text is given, when reading it stopped. -/
def Stop.fault (text : List Char) : Stop → ValueFault
  | misread what rest => .misread what (text.length - rest.length)
  | refused fault => fault

/-- Reads one given character, after any blanks. -/
def readChar (c : Char) (text : List Char) : Except Stop (List Char) :=
  match skipBlanks text with
  | [] => .error (.misread (.charExpected c) [])
  | d :: rest => if d = c then .ok rest else .error (.misread (.charExpected c) (d :: rest))

/-- Reads a run of ASCII letters, after any blanks. -/
def readName (text : List Char) : Except Stop (String × List Char) :=
  let start := skipBlanks text
  match start.takeWhile Char.isAlpha with
  | [] => .error (.misread .nameExpected start)
  | letters => .ok (String.ofList letters, start.dropWhile Char.isAlpha)

/-- Reads everything before a given character, trimmed. That character begins the rest. -/
def readUntil (c : Char) (text : List Char) : Except Stop (List Char × List Char) :=
  match text.dropWhile (· ≠ c) with
  | [] => .error (.misread (.charExpected c) [])
  | rest => .ok (trim (text.takeWhile (· ≠ c)), rest)

/-- The number written by a text. -/
def number (text : List Char) : Except Stop Formula :=
  if isNumberLiteral (String.ofList text) then .ok (.number (String.ofList text))
  else .error (.refused (.invalidNumber (String.ofList text)))

/-- The identifier written by a text. -/
def identifier (text : List Char) : Except Stop Formula :=
  let refusal := Stop.refused (.unsupportedIdentifier (String.ofList text))
  match text with
  | [c] => if isAlphabetic c then .ok (.identifier c) else .error refusal
  | _ => .error refusal

/-- The operator with a given name. -/
def operator (name : String) (rest : List Char) : Except Stop Operator :=
  match Operator.ofTag? name with
  | some op => .ok op
  | none => .error (.misread (.unknownOperator name) rest)

end FormulaEditor.Reading
