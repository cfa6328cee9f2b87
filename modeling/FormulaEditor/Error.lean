import FormulaEditor.Formula.Operator

/-!
# What can go wrong

Errors are causes. A line may be no formula (`LineFault`), a text or a formula may be no
acceptable value (`Misreading`, `ValueFault`), and an operation may be asked of a node which does
not allow it. The wording of each cause is given by its `message`, and nowhere else.
-/

set_option autoImplicit false

namespace FormulaEditor

/-- Why a line of symbols is no formula. -/
inductive LineFault
  /-- There is nothing where an operand has to be. -/
  | termExpected
  /-- A superscript stands where an operand has to be. -/
  | noBase
  /-- A character which begins no operand stands where one has to be. -/
  | unexpected (c : Char)
  /-- A plain character stands in for a fraction, a radical or a superscript. -/
  | mismatch
  /-- A fraction, a radical or a superscript has an expression with nothing in it. -/
  | emptySlot
  deriving DecidableEq, Repr

namespace LineFault

/-- The wording of a line's fault. -/
def message : LineFault → String
  | termExpected => "expected a term"
  | noBase => "exponent has no base"
  | unexpected c => s!"unexpected '{c}'"
  | mismatch => "precis does not match nodes"
  | emptySlot => "empty slot"

end LineFault

/-- What a reader of text met, or missed, at the place where it stopped. -/
inductive Misreading
  | charExpected (c : Char)
  | nameExpected
  | operandExpected
  | closingTagExpected (tag : String)
  | unknownOperator (name : String)
  | unknownTag (name : String)
  | unknownElement (name : String)
  | unexpectedEmptyElement (name : String)
  | operatorNotEmpty
  | emptyMath
  | trailingText
  deriving DecidableEq, Repr

namespace Misreading

/-- The wording of a misreading, without its place. -/
def message : Misreading → String
  | charExpected c => s!"expected '{c}'"
  | nameExpected => "expected a name"
  | operandExpected => "expected ',' or ')'"
  | closingTagExpected tag => s!"expected </{tag}>"
  | unknownOperator name => s!"unknown operator '{name}'"
  | unknownTag name => s!"unknown tag '{name}'"
  | unknownElement name => s!"unknown element <{name}>"
  | unexpectedEmptyElement name => s!"unexpected <{name}/>"
  | operatorNotEmpty => "operator element must be empty"
  | emptyMath => "empty <math> element"
  | trailingText => "unexpected text after value"

end Misreading

/-- Why a text or a formula is refused as a value. -/
inductive ValueFault
  /-- Reading stopped after `offset` characters. -/
  | misread (what : Misreading) (offset : Nat)
  /-- The text of a number is no numeric literal. -/
  | invalidNumber (text : String)
  /-- The text of an identifier is not one letter which can be typed. -/
  | unsupportedIdentifier (text : String)
  /-- A degree stands where no root takes it. -/
  | strayDegree
  /-- An operator has the wrong number of operands. -/
  | wrongOperands (op : Operator)
  /-- The degree of a root is not two. -/
  | notSquareRoot
  deriving DecidableEq, Repr

namespace ValueFault

/-- The wording of a value's fault. -/
def message : ValueFault → String
  | misread what offset => s!"{what.message} at offset {offset}"
  | invalidNumber text => s!"invalid number '{text}'"
  | unsupportedIdentifier text => s!"unsupported identifier '{text}'"
  | strayDegree => "degree outside of root"
  | wrongOperands op => s!"wrong operands for '{op.tag}'"
  | notSquareRoot => "only square roots are supported"

end ValueFault

/-- Why an operation on a tree or an editor fails. -/
inductive Error
  /-- A character or a name which cannot be typed. -/
  | unrecognizedInput (text : String)
  /-- A node which stands in no expression. -/
  | noParent
  /-- A node which was deleted or never made, or which cannot be reached. -/
  | nodeNotFound
  /-- A node of the wrong kind. -/
  | invalidNode
  /-- A node which would come to stand inside itself. -/
  | cyclicInsert
  /-- A bracket or bar without a partner. -/
  | unmatchedDelimiter (position : Nat)
  /-- An expression with nothing in it. -/
  | emptyExpression
  | cannotParse (fault : LineFault)
  | invalidValue (fault : ValueFault)
  deriving DecidableEq, Repr

namespace Error

/-- The wording of an error. -/
def message : Error → String
  | unrecognizedInput text => s!"unrecognized input: {text}"
  | noParent => "node has no parent"
  | nodeNotFound => "node not found in tree"
  | invalidNode => "operation not permitted on this kind of node"
  | cyclicInsert => "cannot insert a node inside itself"
  | unmatchedDelimiter position => s!"unmatched delimiter at position {position}"
  | emptyExpression => "expression is empty"
  | cannotParse fault => s!"cannot parse expression: {fault.message}"
  | invalidValue fault => s!"invalid semantic value: {fault.message}"

end Error

end FormulaEditor
