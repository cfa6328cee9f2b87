import FormulaEditor.Stroke

/-!
# Glyphs and lines

A glyph is a symbol as it is displayed, together with everything inside it, and a line is a
sequence of glyphs: what an expression shows after its start. Two expressions with the same line
look alike, whatever nodes they are made of.
-/

set_option autoImplicit false

namespace FormulaEditor

/-- A displayed symbol with everything inside it. -/
inductive Glyph
  | atom (c : Char)
  | bracket (side : Side)
  | bar
  | fraction (numerator denominator : List Glyph)
  | superscript (exponent : List Glyph)
  | radical (radicand : List Glyph)
  deriving Repr

/-- What an expression shows after its start. -/
abbrev Line := List Glyph

end FormulaEditor
