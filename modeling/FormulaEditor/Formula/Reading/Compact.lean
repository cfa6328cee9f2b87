import FormulaEditor.Formula.Reading.Basic

/-!
# Reading the compact text of a formula

Blanks may stand before every name, bracket and comma. Inside the brackets of a number or an
identifier everything up to the closing bracket counts, trimmed. Every step reads at least one
character, so a text is read completely before the fuel, one more than its length, is used up.
-/

set_option autoImplicit false

namespace FormulaEditor.Reading

open Text

mutual

/-- Reads one formula. -/
def compactWithin : Nat → List Char → Except Stop (Formula × List Char)
  | 0, text => .error (.misread .nameExpected text)
  | fuel + 1, text => do
    let (word, rest) ← readName text
    if word = "apply" then
      let rest ← readChar '(' rest
      let (name, rest) ← readName rest
      let op ← operator name rest
      let (operands, rest) ← compactOperandsWithin fuel rest
      return (.apply op operands, rest)
    else if word = "cn" then
      let (content, rest) ← readUntil ')' (← readChar '(' rest)
      return (← number content, rest.drop 1)
    else if word = "ci" then
      let (content, rest) ← readUntil ')' (← readChar '(' rest)
      return (← identifier content, rest.drop 1)
    else if word = "degree" then
      let (value, rest) ← compactWithin fuel (← readChar '(' rest)
      return (.degree value, ← readChar ')' rest)
    else match Constant.ofTag? word with
      | some constant => return (.constant constant, rest)
      | none => .error (.misread (.unknownTag word) rest)

/-- Reads the operands of an application, each after a comma, and the bracket which closes it. -/
def compactOperandsWithin : Nat → List Char → Except Stop (List Formula × List Char)
  | 0, text => .error (.misread .operandExpected text)
  | fuel + 1, text =>
    match skipBlanks text with
    | ',' :: rest => do
      let (operand, rest) ← compactWithin fuel rest
      let (operands, rest) ← compactOperandsWithin fuel rest
      return (operand :: operands, rest)
    | ')' :: rest => .ok ([], rest)
    | rest => .error (.misread .operandExpected rest)

end

/-- Reads one formula in compact form. -/
def compact (text : List Char) : Except Stop (Formula × List Char) :=
  compactWithin (text.length + 1) text

end FormulaEditor.Reading
