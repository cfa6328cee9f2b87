import FormulaEditor.Formula.Reading.Basic

/-!
# Reading the content MathML of a formula

Blanks may stand before every tag and inside tags, and attributes are skipped. An element whose
tag ends with a slash has no content. Every step reads at least one character, so a text is read
completely before the fuel, one more than its length, is used up.
-/

set_option autoImplicit false

namespace FormulaEditor.Reading

open Text

/-- What a tag which is no closing tag says. -/
structure Tag where
  name : String
  /-- Whether the element has no content. -/
  isEmpty : Bool
  deriving DecidableEq, Repr

/-- Reads a tag which is no closing tag, with its attributes. -/
def openingTag (text : List Char) : Except Stop (Tag × List Char) := do
  let (name, rest) ← readName (← readChar '<' text)
  let (attributes, rest) ← readUntil '>' rest
  return (⟨name, attributes.getLast? = some '/'⟩, rest.drop 1)

/-- Reads the closing tag of an element. -/
def closingTag (name : String) (text : List Char) : Except Stop (List Char) := do
  let (found, rest) ← readName (← readChar '/' (← readChar '<' text))
  if found = name then readChar '>' rest
  else .error (.misread (.closingTagExpected name) rest)

/-- Whether a text goes on with a closing tag, after any blanks. -/
def atClosingTag (text : List Char) : Bool :=
  match skipBlanks text with
  | '<' :: '/' :: _ => true
  | _ => false

mutual

/-- Reads what follows the opening tag of an element, up to the end of the element. -/
def elementWithin : Nat → Tag → List Char → Except Stop (Formula × List Char)
  | 0, tag, text => .error (.misread (.unknownElement tag.name) text)
  | fuel + 1, tag, text => do
    if tag.isEmpty then
      match Constant.ofTag? tag.name with
      | some constant => return (.constant constant, text)
      | none => .error (.misread (.unexpectedEmptyElement tag.name) text)
    else if tag.name = "apply" then
      let (head, rest) ← openingTag text
      if head.isEmpty then
        let op ← operator head.name rest
        let (operands, rest) ← elementsWithin fuel rest
        return (.apply op operands, ← closingTag tag.name rest)
      else .error (.misread .operatorNotEmpty rest)
    else if tag.name = "cn" then
      let (content, rest) ← readUntil '<' text
      return (← number content, ← closingTag tag.name rest)
    else if tag.name = "ci" then
      let (content, rest) ← readUntil '<' text
      return (← identifier content, ← closingTag tag.name rest)
    else if tag.name = "degree" then
      let (inner, rest) ← openingTag text
      let (value, rest) ← elementWithin fuel inner rest
      return (.degree value, ← closingTag tag.name rest)
    else .error (.misread (.unknownElement tag.name) text)

/-- Reads elements up to a closing tag. -/
def elementsWithin : Nat → List Char → Except Stop (List Formula × List Char)
  | 0, text => .error (.misread (.charExpected '<') text)
  | fuel + 1, text =>
    if atClosingTag text then .ok ([], text)
    else do
      let (tag, rest) ← openingTag text
      let (value, rest) ← elementWithin fuel tag rest
      let (values, rest) ← elementsWithin fuel rest
      return (value :: values, rest)

end

/-- Reads one element, or one element inside a `math` element. -/
def mathml (text : List Char) : Except Stop (Formula × List Char) := do
  let fuel := text.length + 1
  let (tag, rest) ← openingTag text
  if tag.name = "math" then
    if tag.isEmpty then .error (.misread .emptyMath rest)
    else
      let (inner, rest) ← openingTag rest
      let (value, rest) ← elementWithin fuel inner rest
      return (value, ← closingTag tag.name rest)
  else elementWithin fuel tag rest

end FormulaEditor.Reading
