import FormulaEditor.Line.Lexeme

/-!
# The grammar of words

A sum is made of products, and groups to the left. A product is made of signed terms, and groups
to the right. A term is a function applied to the term after it, or an operand with its powers,
which group to the left; a term which follows directly is multiplied, with what is further right
grouped first. A sign which comes first, or directly after a sign or an operator, belongs to its
operand.

Faults are met from left to right, and the first one counts.
-/

set_option autoImplicit false

namespace FormulaEditor.Lexeme

/-- What follows an operand: powers, and the term after them if there is one. -/
structure Following where
  powers : List Outcome
  term : Option Outcome

namespace Following

/-- What is read where a term has to begin. -/
def asTerm : Following → Outcome
  | ⟨[], none⟩ => .error (.cannotParse .termExpected)
  | ⟨[], some term⟩ => term
  | ⟨_ :: _, _⟩ => .error (.cannotParse .noBase)

/-- An operand with its powers, multiplied by the term after them. -/
def applyTo (following : Following) (operand : Outcome) : Outcome := do
  let base ← operand
  let value ← following.powers.foldlM
    (fun value exponent => return .binary .power value (← exponent)) base
  match following.term with
  | none => return value
  | some term => return .binary .times value (← term)

/-- One more power in front of the others. -/
def addPower (following : Following) (exponent : Outcome) : Following :=
  { following with powers := exponent :: following.powers }

end Following

/-- A term which cannot begin with the given character. -/
def strayTerm (c : Char) : Following :=
  ⟨[], some (.error (.cannotParse (.unexpected c)))⟩

/-- What the words of a term say to an operand before them. -/
def following : List Lexeme → Following
  | [] => ⟨[], none⟩
  | .operand value :: rest => ⟨[], some ((following rest).applyTo value)⟩
  | .power exponent :: rest => (following rest).addPower exponent
  | .function op :: rest => ⟨[], some ((following rest).asTerm.map (.unary op))⟩
  | .plus :: _ => strayTerm '+'
  | .minus :: _ => strayTerm '-'
  | .times :: _ => strayTerm '*'
  | .stray c :: _ => strayTerm c

/-- Reads a term. -/
def term (words : List Lexeme) : Outcome :=
  (following words).asTerm

/-- Reads a term behind any number of minus signs. -/
def signed : List Lexeme → Outcome
  | .minus :: words => (signed words).map (.unary .minus)
  | words => term words

/-- One more word in front of the first part of a sequence which has been cut. -/
def extend {α : Type} (word : Lexeme) (parts : List Lexeme × List α) : List Lexeme × List α :=
  (word :: parts.1, parts.2)

/-- Cuts a product at its operators, into the first factor and the others. -/
def factors : List Lexeme → List Lexeme × List (List Lexeme)
  | [] => ([], [])
  | .times :: words =>
    let (second, others) := factors words
    ([], second :: others)
  | word :: words => extend word (factors words)

/-- Multiplies factors, grouping to the right. -/
def productOf (first : List Lexeme) : List (List Lexeme) → Outcome
  | [] => signed first
  | second :: others => do
    let left ← signed first
    return .binary .times left (← productOf second others)

/-- Reads a product. -/
def product (words : List Lexeme) : Outcome :=
  let (first, others) := factors words
  productOf first others

/-- Cuts a sum at the signs which add or subtract, into the first summand and the others with
their signs. A sign belongs to its operand if `unary` holds, that is, at the beginning and after a
sign or an operator. -/
def summands (unary : Bool) : List Lexeme → List Lexeme × List (Operator × List Lexeme)
  | [] => ([], [])
  | .plus :: words =>
    let (second, others) := summands true words
    if unary then (.plus :: second, others) else ([], (.plus, second) :: others)
  | .minus :: words =>
    let (second, others) := summands true words
    if unary then (.minus :: second, others) else ([], (.minus, second) :: others)
  | .times :: words => extend .times (summands true words)
  | word :: words => extend word (summands false words)

/-- Adds and subtracts summands, grouping to the left. -/
def sumOf (first : Outcome) (others : List (Operator × List Lexeme)) : Outcome := do
  others.foldlM (fun left (sign, words) => return .binary sign left (← product words)) (← first)

/-- Reads a sum. -/
def sum (words : List Lexeme) : Outcome :=
  let (first, others) := summands true words
  sumOf (product first) others

end FormulaEditor.Lexeme
