import FormulaEditor.Stroke

/-!
# Nodes

A node is an expression, which is a list of symbols, or a symbol. Every expression begins with a
start symbol. A composite symbol owns further expressions, its slots. An expression has the symbol
which owns it as its parent, and a symbol the expression in which it stands. Nodes are named by
numbers.
-/

set_option autoImplicit false

namespace FormulaEditor

/-- The name of a node. -/
abbrev NodeId := Nat

/-- What can stand in an expression. -/
inductive Symbol
  /-- The first symbol of every expression. The cursor is after it when it is at the very left. -/
  | start
  /-- A plain character. -/
  | atom (c : Char)
  | bracket (side : Side)
  /-- A bar of an absolute value. -/
  | bar
  | fraction (numerator denominator : NodeId)
  /-- An exponent of whatever stands before it. -/
  | superscript (exponent : NodeId)
  /-- A square root. -/
  | radical (radicand : NodeId)
  deriving DecidableEq, Repr

namespace Symbol

/-- The character which stands for a symbol in the precis of its expression. -/
def precis : Symbol → Char
  | start => '_'
  | atom c => c
  | bracket side => side.char
  | bar => '|'
  | superscript _ => '^'
  | fraction _ _ | radical _ => '%'

/-- The expressions which a symbol owns, from top to bottom. -/
def slots : Symbol → List NodeId
  | fraction numerator denominator => [numerator, denominator]
  | superscript exponent => [exponent]
  | radical radicand => [radicand]
  | start | atom _ | bracket _ | bar => []

/-- Whether a symbol owns expressions. -/
def isComposite (symbol : Symbol) : Bool :=
  !symbol.slots.isEmpty

end Symbol

/-- The symbol which a stroke makes as node `id`. Its slots come next, each taking two nodes. -/
def Stroke.symbol (id : NodeId) : Stroke → Symbol
  | .atom c => .atom c
  | .bracket side => .bracket side
  | .bar => .bar
  | .fraction => .fraction (id + 1) (id + 3)
  | .superscript => .superscript (id + 1)
  | .radical => .radical (id + 1)

/-- What a node is. -/
inductive NodeKind
  | expression (items : List NodeId)
  | symbol (symbol : Symbol)
  deriving DecidableEq, Repr

/-- A node. -/
structure Node where
  /-- The expression in which a symbol stands, or the symbol which owns an expression. The root
  has none, nor has a symbol which stands nowhere. -/
  parent : Option NodeId
  kind : NodeKind
  deriving DecidableEq, Repr

namespace Node

/-- The nodes directly below a node, in display order. -/
def below (node : Node) : List NodeId :=
  match node.kind with
  | .expression items => items
  | .symbol symbol => symbol.slots

/-- A node with another parent. -/
def withParent (parent : Option NodeId) (node : Node) : Node :=
  { node with parent }

/-- A node with its list of symbols changed, if it is an expression. -/
def mapItems (change : List NodeId → List NodeId) (node : Node) : Node :=
  match node.kind with
  | .expression items => { node with kind := .expression (change items) }
  | .symbol _ => node

end Node

end FormulaEditor
