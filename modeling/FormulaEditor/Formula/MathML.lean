import FormulaEditor.Formula.Basic

/-!
# The content MathML of a formula

Every application is an `apply` element which begins with an empty element for its operator, as in
`<apply><plus/><cn>1</cn><ci>x</ci></apply>`. No blanks, attributes or outer `math` element are
written. A formula is written in front of the text which follows it.
-/

set_option autoImplicit false

namespace FormulaEditor.Formula

/-- The opening tag of an element, in front of the rest of a text. -/
def openingThen (tag : String) (rest : List Char) : List Char :=
  '<' :: tag.toList ++ '>' :: rest

/-- The closing tag of an element, in front of the rest of a text. -/
def closingThen (tag : String) (rest : List Char) : List Char :=
  '<' :: '/' :: tag.toList ++ '>' :: rest

/-- An element without content, in front of the rest of a text. -/
def emptyElementThen (tag : String) (rest : List Char) : List Char :=
  '<' :: tag.toList ++ '/' :: '>' :: rest

mutual

/-- The content MathML of a formula, in front of the rest of a text. -/
def mathmlThen : Formula → List Char → List Char
  | .number text, rest => openingThen "cn" (text.toList ++ closingThen "cn" rest)
  | .identifier letter, rest => openingThen "ci" (letter :: closingThen "ci" rest)
  | .constant name, rest => emptyElementThen name.tag rest
  | .degree value, rest => openingThen "degree" (mathmlThen value (closingThen "degree" rest))
  | .apply op operands, rest =>
    openingThen "apply"
      (emptyElementThen op.tag (mathmlOperandsThen operands (closingThen "apply" rest)))

/-- The content MathML of a list of operands, one after the other, in front of the rest of a text.
-/
def mathmlOperandsThen : List Formula → List Char → List Char
  | [], rest => rest
  | operand :: operands, rest => mathmlThen operand (mathmlOperandsThen operands rest)

end

/-- The content MathML of a formula. -/
def mathml (formula : Formula) : String :=
  String.ofList (formula.mathmlThen [])

end FormulaEditor.Formula
