import FormulaEditor.Edit
import FormulaEditor.Formula.Typeset
import FormulaEditor.Line.Formula
import FormulaEditor.Tree.Edit

/-!
# Formulas in a tree

An expression denotes the formula of the line which it shows. In the other direction, a formula is
put into a tree symbol by symbol, with an explicit sign for every product and with brackets wherever
the line would otherwise be read in another grouping. The slots of a composite symbol are filled
before the next symbol is made.
-/

set_option autoImplicit false

namespace FormulaEditor.Tree

/-- The formula which an expression denotes. -/
def formula (tree : Tree) (expression : NodeId) : Outcome := do
  let _ ← tree.items expression
  (tree.line expression).formula

/-- The start of one of the slots of a symbol. -/
def slotStart (tree : Tree) (id : NodeId) (index : Nat) : Except Error NodeId := do
  match (← tree.symbol id).slots[index]? with
  | some slot => tree.first slot
  | none => .error .invalidNode

/-- Creates plain characters one after another, and answers the last one. -/
def addAtoms (anchor : NodeId) : List Char → Edit Tree NodeId
  | [] => return anchor
  | c :: cs => do addAtoms (← add anchor (.atom c)) cs

/-- Creates something, between round brackets where they are needed, and answers its last symbol. -/
def emitBracketedIf (needed : Bool) (content : NodeId → Edit Tree NodeId) (anchor : NodeId) :
    Edit Tree NodeId := do
  if needed then add (← content (← add anchor (.bracket .opening))) (.bracket .closing)
  else content anchor

/-- Creates a symbol with one slot and what is inside it, and answers its name. -/
def emitFilled (stroke : Stroke) (content : NodeId → Edit Tree NodeId) (anchor : NodeId) :
    Edit Tree NodeId := do
  let id ← add anchor stroke
  let _ ← content (← Edit.look (·.slotStart id 0))
  return id

mutual

/-- Creates the symbols of a formula after a symbol, and answers the last of them. It fails at an
application to a wrong number of operands and at a stray degree, when it comes to them. -/
def emit : Formula → NodeId → Edit Tree NodeId
  | .number text, anchor => addAtoms anchor text.toList
  | .identifier letter, anchor => add anchor (.atom letter)
  | .constant name, anchor => add anchor (.atom name.letter)
  | .degree _, _ => throw (.invalidValue .strayDegree)
  | .apply .plus (first :: others), anchor => do emitTerms '+' others (← emit first anchor)
  | .apply .minus [operand], anchor => do
    emitBracketedIf (operand.isSum || operand.isProduct) (emit operand) (← add anchor (.atom '-'))
  | .apply .minus (first :: others), anchor => do emitTerms '-' others (← emit first anchor)
  | .apply .times factors, anchor => emitFactors factors anchor
  | .apply .divide [numerator, denominator], anchor => do
    let id ← add anchor .fraction
    let _ ← emit numerator (← Edit.look (·.slotStart id 0))
    let _ ← emit denominator (← Edit.look (·.slotStart id 1))
    return id
  | .apply .power [base, exponent], anchor => do
    emitFilled .superscript (emit exponent) (← emitBracketedIf (!base.bindsPower) (emit base) anchor)
  | .apply .root operands, anchor => emitRoot operands anchor
  | .apply .abs [operand], anchor => do add (← emit operand (← add anchor .bar)) .bar
  | .apply op [operand], anchor => do
    if op.isFunction then emitBracketedIf true (emit operand) (← addAtoms anchor op.tag.toList)
    else throw (.invalidValue (.wrongOperands op))
  | .apply op _, _ => throw (.invalidValue (.wrongOperands op))

/-- Creates the terms of a sum after the first, each behind a sign. -/
def emitTerms (sign : Char) : List Formula → NodeId → Edit Tree NodeId
  | [], anchor => return anchor
  | term :: terms, anchor => do
    let last ← emitBracketedIf term.isSum (emit term) (← add anchor (.atom sign))
    emitTerms sign terms last

/-- Creates the factors of a product. Products group to the right, so only the last factor may be a
product without brackets. -/
def emitFactors : List Formula → NodeId → Edit Tree NodeId
  | [], _ => throw (.invalidValue (.wrongOperands .times))
  | [factor], anchor => emitBracketedIf factor.isSum (emit factor) anchor
  | factor :: factors, anchor => do
    let last ← emitBracketedIf (factor.isSum || factor.isProduct) (emit factor) anchor
    emitFactors factors (← add last (.atom '*'))

/-- Creates a square root. The radicand is the last operand, and there is no degree to be seen. -/
def emitRoot : List Formula → NodeId → Edit Tree NodeId
  | [], _ => throw (.invalidValue (.wrongOperands .root))
  | [radicand], anchor => emitFilled .radical (emit radicand) anchor
  | _ :: operands, anchor => emitRoot operands anchor

end

/-- Puts a formula into the tree after a symbol, and answers the last symbol of its line. The
formula is checked before anything is made. -/
def typeset (anchor : NodeId) (formula : Formula) : Edit Tree NodeId := do
  Edit.ofExcept (formula.typesettable.mapError .invalidValue)
  let _ ← Edit.look (·.position anchor)
  emit formula anchor

end FormulaEditor.Tree
