/-!
# Operators and named constants

What can stand at the head of an application, and the constants which have a name. Each has a tag,
the word which names it in both textual forms of a formula. Tags are distinct, so a tag finds its
operator (`Operator.ofTag?_tag`) and its constant (`Constant.ofTag?_tag`).
-/

set_option autoImplicit false

namespace FormulaEditor

/-- What an application applies to its operands. -/
inductive Operator
  | plus
  | minus
  | times
  | divide
  | power
  | root
  | abs
  | sin
  | cos
  | tan
  | ln
  deriving DecidableEq, Repr

namespace Operator

/-- All operators. -/
def all : List Operator :=
  [plus, minus, times, divide, power, root, abs, sin, cos, tan, ln]

/-- The word which names an operator in both textual forms. -/
def tag : Operator → String
  | plus => "plus"
  | minus => "minus"
  | times => "times"
  | divide => "divide"
  | power => "power"
  | root => "root"
  | abs => "abs"
  | sin => "sin"
  | cos => "cos"
  | tan => "tan"
  | ln => "ln"

/-- The operator with a given tag. -/
def ofTag? (tag : String) : Option Operator :=
  all.find? fun op => op.tag == tag

/-- Every operator is found by its tag. -/
theorem ofTag?_tag (op : Operator) : ofTag? op.tag = some op := by
  cases op <;> decide

/-- The operators which are typed letter by letter: their tag is also their name in a line. -/
def functions : List Operator :=
  [sin, cos, tan, ln]

/-- Whether an operator is typed letter by letter. -/
def isFunction (op : Operator) : Bool :=
  functions.contains op

/-- Whether an operator can be applied to a number of operands. Sums, differences and products
take any number from some number on, and a root may take its degree before its radicand. -/
def takes : Operator → Nat → Bool
  | plus, count | times, count => 2 ≤ count
  | minus, count => 1 ≤ count
  | divide, count | power, count => count = 2
  | root, count => count = 1 || count = 2
  | abs, count | sin, count | cos, count | tan, count | ln, count => count = 1

end Operator

/-- A constant with a name. -/
inductive Constant
  | pi
  | exponentialE
  | infinity
  deriving DecidableEq, Repr

namespace Constant

/-- All constants. -/
def all : List Constant :=
  [pi, exponentialE, infinity]

/-- The word which names a constant in both textual forms. -/
def tag : Constant → String
  | pi => "pi"
  | exponentialE => "exponentiale"
  | infinity => "infinity"

/-- The constant with a given tag. -/
def ofTag? (tag : String) : Option Constant :=
  all.find? fun constant => constant.tag == tag

/-- Every constant is found by its tag. -/
theorem ofTag?_tag (constant : Constant) : ofTag? constant.tag = some constant := by
  cases constant <;> decide

/-- The character which stands for a constant in a line. -/
def letter : Constant → Char
  | pi => 'π'
  | exponentialE => 'e'
  | infinity => '∞'

end Constant

end FormulaEditor
