import FormulaEditor.Line.Grammar

/-!
# The formula of a line

A line is read from the inside out. The lines inside its glyphs give its tokens, its fences are
grouped, and what each fence encloses is read as an operand. What is left is a sequence of words
without fences, which is read by the grammar. The start of an expression has position 0, so a line
begins at position 1.
-/

set_option autoImplicit false

namespace FormulaEditor

/-- Reads a sequence of tokens without fences. -/
def Token.sum (tokens : List Token) : Outcome :=
  Lexeme.sum (Lexeme.words tokens)

/-- The operand which a fence makes of what it encloses. -/
def Fence.operand : Fence → Outcome → Outcome
  | brackets, value => value
  | bars, value => value.map (.unary .abs)

mutual

/-- The token of a span. -/
def Span.token : Span Token → Token
  | .single token => token
  | .enclosed fence content => .operand (fence.operand (Token.sum (Span.tokens content)))

/-- The tokens of a sequence of spans. -/
def Span.tokens : List (Span Token) → List Token
  | [] => []
  | span :: spans => span.token :: Span.tokens spans

end

/-- Reads the tokens of a line. -/
def Token.formula (tokens : List Token) : Outcome :=
  match Fence.group Token.precis 1 tokens with
  | .error position => .error (.unmatchedDelimiter position)
  | .ok [] => .error .emptyExpression
  | .ok spans => Token.sum (Span.tokens spans)

/-- Reads the tokens of a line inside a glyph, which must not be empty. -/
def Token.slot (tokens : List Token) : Outcome :=
  match Token.formula tokens with
  | .error .emptyExpression => .error (.cannotParse .emptySlot)
  | outcome => outcome

mutual

/-- The token of a glyph. -/
def Glyph.token : Glyph → Token
  | .atom c => .ofChar c
  | .bracket side => .char side.char
  | .bar => .char '|'
  | .fraction numerator denominator => .operand do
    let top ← Token.slot (Glyph.tokens numerator)
    return .binary .divide top (← Token.slot (Glyph.tokens denominator))
  | .superscript exponent => .power (Token.slot (Glyph.tokens exponent))
  | .radical radicand => .operand ((Token.slot (Glyph.tokens radicand)).map .squareRoot)

/-- The tokens of a line. -/
def Glyph.tokens : List Glyph → List Token
  | [] => []
  | glyph :: glyphs => glyph.token :: Glyph.tokens glyphs

end

/-- The formula of a line. -/
def Line.formula (line : Line) : Outcome :=
  Token.formula (Glyph.tokens line)

end FormulaEditor
