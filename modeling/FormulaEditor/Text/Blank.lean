import FormulaEditor.Text.Ranges

/-!
# Blank characters

The characters with the property White_Space of Unicode 17.0, and the two ways in which a text
drops them: in front only, and on both ends.
-/

set_option autoImplicit false

namespace FormulaEditor.Text

/-- The code points with the property White_Space. -/
def blank : Ranges :=
  [(0x9, 0xD), (0x20, 0x20), (0x85, 0x85), (0xA0, 0xA0), (0x1680, 0x1680), (0x2000, 0x200A),
   (0x2028, 0x2029), (0x202F, 0x202F), (0x205F, 0x205F), (0x3000, 0x3000)]

/-- Whether a character is blank. -/
def isBlank (c : Char) : Bool :=
  blank.covers c

/-- A text without the blanks it begins with. -/
def skipBlanks (text : List Char) : List Char :=
  text.dropWhile isBlank

/-- A text without the blanks on its two ends. -/
def trim (text : List Char) : List Char :=
  (skipBlanks (skipBlanks text).reverse).reverse

end FormulaEditor.Text
