import FormulaEditor.Line.Token
import FormulaEditor.Text.Alphabetic

/-!
# Lexemes

Lexemes are the words of a line, among which operators are found. They are taken greedily from the
left: a number has all the digits it can get, with a point only between two of them, and the names
of functions and the word `pi` win over single letters.
-/

set_option autoImplicit false

namespace FormulaEditor

/-- A word of a line. -/
inductive Lexeme
  | operand (value : Outcome)
  | power (exponent : Outcome)
  /-- The name of a function, which applies to everything after it. -/
  | function (op : Operator)
  | plus
  | minus
  | times
  /-- A character which begins no word. -/
  | stray (c : Char)

namespace Lexeme

/-- The digits with which a sequence begins. -/
def digits : List Token → List Char
  | [] => []
  | token :: tokens => match token.digit? with
    | some c => c :: digits tokens
    | none => []

/-- A point and the digits after it, with which a sequence begins, or nothing if one is missing.
-/
def fraction : List Token → List Char
  | .char '.' :: tokens => match digits tokens with
    | [] => []
    | places => '.' :: places
  | _ => []

/-- Whether a sequence begins with the letters of a word. -/
def spells : List Char → List Token → Bool
  | [], _ => true
  | letter :: letters, token :: tokens => token.precis = letter && spells letters tokens
  | _ :: _, [] => false

/-- The first function whose name a sequence begins with. -/
def function? (tokens : List Token) : Option Operator :=
  Operator.functions.find? fun op => spells op.tag.toList tokens

/-- The word of a single character. -/
def ofChar (c : Char) : Lexeme :=
  if c = '+' then .plus
  else if c = '-' then .minus
  else if c = '*' then .times
  else if c = 'π' then .operand (.ok (.constant .pi))
  else if c = 'e' then .operand (.ok (.constant .exponentialE))
  else if c = '∞' then .operand (.ok (.constant .infinity))
  else if Text.isAlphabetic c then .operand (.ok (.identifier c))
  else .stray c

/-- The first word of a non-empty sequence, and how many tokens after the first belong to it. -/
def next (token : Token) (tokens : List Token) : Lexeme × Nat :=
  match token with
  | .operand value => (.operand value, 0)
  | .power exponent => (.power exponent, 0)
  | .char c =>
    if c.isDigit then
      let whole := digits tokens
      let places := fraction (tokens.drop whole.length)
      let number := Formula.number (String.ofList (c :: whole ++ places))
      (.operand (.ok number), whole.length + places.length)
    else match function? (token :: tokens) with
      | some op => (.function op, op.tag.length - 1)
      | none =>
        if spells "pi".toList (token :: tokens) then (.operand (.ok (.constant .pi)), 1)
        else (.ofChar c, 0)

/-- The words of a sequence after some tokens which belong to the word before. -/
def wordsAfter : Nat → List Token → List Lexeme
  | _, [] => []
  | skipped + 1, _ :: tokens => wordsAfter skipped tokens
  | 0, token :: tokens =>
    let (word, more) := next token tokens
    word :: wordsAfter more tokens

/-- The words of a sequence. -/
def words (tokens : List Token) : List Lexeme :=
  wordsAfter 0 tokens

end Lexeme

end FormulaEditor
