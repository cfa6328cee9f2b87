import FormulaEditor.Decimal
import FormulaEditor.Formula.Operator

/-!
# Formulas

A formula is a tree of operators applied to operands, as in content MathML. Equality of formulas
is decidable, and three questions about the outermost operator decide where a line needs brackets:
whether the formula is a sum, whether it is a product, and whether it begins with a minus sign.
-/

set_option autoImplicit false

namespace FormulaEditor

/-- A formula. -/
inductive Formula
  /-- A number, with the text by which it was given. -/
  | number (text : String)
  /-- A variable with a name of one letter. -/
  | identifier (letter : Char)
  | constant (name : Constant)
  /-- The degree which a root takes before its radicand. -/
  | degree (value : Formula)
  | apply (op : Operator) (operands : List Formula)
  deriving Repr

namespace Formula

mutual

/-- Decides whether two formulas are equal. -/
def decEq : (a b : Formula) → Decidable (a = b)
  | .number s, b => match b with
    | .number t => if h : s = t then .isTrue (h ▸ rfl) else .isFalse fun e => h (number.inj e)
    | .identifier _ | .constant _ | .degree _ | .apply _ _ => .isFalse nofun
  | .identifier s, b => match b with
    | .identifier t =>
      if h : s = t then .isTrue (h ▸ rfl) else .isFalse fun e => h (identifier.inj e)
    | .number _ | .constant _ | .degree _ | .apply _ _ => .isFalse nofun
  | .constant s, b => match b with
    | .constant t => if h : s = t then .isTrue (h ▸ rfl) else .isFalse fun e => h (constant.inj e)
    | .number _ | .identifier _ | .degree _ | .apply _ _ => .isFalse nofun
  | .degree s, b => match b with
    | .degree t => match decEq s t with
      | .isTrue h => .isTrue (h ▸ rfl)
      | .isFalse h => .isFalse fun e => h (degree.inj e)
    | .number _ | .identifier _ | .constant _ | .apply _ _ => .isFalse nofun
  | .apply op args, b => match b with
    | .apply op' args' =>
      if h : op = op' then match decEqList args args' with
        | .isTrue h' => .isTrue (h ▸ h' ▸ rfl)
        | .isFalse h' => .isFalse fun e => h' (apply.inj e).2
      else .isFalse fun e => h (apply.inj e).1
    | .number _ | .identifier _ | .constant _ | .degree _ => .isFalse nofun

/-- Decides whether two lists of formulas are equal. -/
def decEqList : (as bs : List Formula) → Decidable (as = bs)
  | [], bs => match bs with
    | [] => .isTrue rfl
    | _ :: _ => .isFalse nofun
  | a :: as, bs => match bs with
    | [] => .isFalse nofun
    | b :: bs => match decEq a b with
      | .isTrue h => match decEqList as bs with
        | .isTrue h' => .isTrue (h ▸ h' ▸ rfl)
        | .isFalse h' => .isFalse fun e => h' (List.cons.inj e).2
      | .isFalse h => .isFalse fun e => h (List.cons.inj e).1

end

/-- Whether two formulas are equal can be computed. -/
instance : DecidableEq Formula := decEq

/-- An operator applied to one operand. -/
def unary (op : Operator) (operand : Formula) : Formula :=
  .apply op [operand]

/-- An operator applied to two operands. -/
def binary (op : Operator) (left right : Formula) : Formula :=
  .apply op [left, right]

/-- The root of degree two. -/
def squareRoot (radicand : Formula) : Formula :=
  .apply .root [.degree (.number "2"), radicand]

/-- Whether a formula is a degree. -/
def isDegree : Formula → Bool
  | .degree _ => true
  | _ => false

/-- Whether the outermost operator adds or subtracts. -/
def isSum : Formula → Bool
  | .apply .plus operands | .apply .minus operands => 2 ≤ operands.length
  | _ => false

/-- Whether the outermost operator multiplies. -/
def isProduct : Formula → Bool
  | .apply .times _ => true
  | _ => false

/-- Whether a formula begins with a minus sign when it is typed. -/
def isSigned : Formula → Bool
  | .apply .minus operands => operands.length = 1
  | .number text => text.toList.head? = some '-'
  | _ => false

/-- The value of a number, if it has one within the precision of decimal numbers. -/
def decimalValue : Formula → Option Decimal
  | .number text => Decimal.ofText? text
  | _ => none

end Formula

end FormulaEditor
