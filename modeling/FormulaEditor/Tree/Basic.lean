import FormulaEditor.Tree.Node

/-!
# Trees

A tree holds the nodes of an editable formula by their names. The root is node 0, an expression
without an owner. A deleted node leaves its name unused, so a name never denotes two nodes.
Besides, a tree remembers which nodes have to be laid out again.
-/

set_option autoImplicit false

namespace FormulaEditor

/-- What a tree keeps under a name. -/
structure Cell where
  /-- The node, unless it has been deleted. -/
  node : Option Node
  /-- Whether the node has to be laid out again. -/
  marked : Bool
  deriving DecidableEq, Repr

/-- The nodes of an editable formula. -/
structure Tree where
  /-- What is kept under the names given so far. -/
  cells : Array Cell
  deriving DecidableEq, Repr

namespace Tree

/-- The expression which is the whole formula. -/
def root : NodeId := 0

/-- A tree whose root has nothing in it. -/
def empty : Tree :=
  ⟨#[⟨some ⟨none, .expression [1]⟩, false⟩, ⟨some ⟨some root, .symbol .start⟩, false⟩]⟩

/-- The name of the node which is made next. -/
def nextId (tree : Tree) : NodeId :=
  tree.cells.size

/-- The node with a name, if it is live. -/
def node? (tree : Tree) (id : NodeId) : Option Node :=
  tree.cells[id]?.bind (·.node)

/-- The parent of a live node, if it has one. -/
def parent? (tree : Tree) (id : NodeId) : Option NodeId :=
  (tree.node? id).bind (·.parent)

/-- Whether a node is marked for layout. -/
def isMarked (tree : Tree) (id : NodeId) : Bool :=
  tree.cells[id]?.any (·.marked)

/-- Whether a name denotes a node which has not been deleted. -/
def isLive (tree : Tree) (id : NodeId) : Bool :=
  (tree.node? id).isSome

/-- The node with a name. -/
def node (tree : Tree) (id : NodeId) : Except Error Node :=
  match tree.node? id with
  | some node => .ok node
  | none => .error .nodeNotFound

/-- The symbol with a name. -/
def symbol (tree : Tree) (id : NodeId) : Except Error Symbol := do
  match (← tree.node id).kind with
  | .symbol symbol => return symbol
  | .expression _ => .error .invalidNode

/-- The symbols of an expression. -/
def items (tree : Tree) (expression : NodeId) : Except Error (List NodeId) := do
  match (← tree.node expression).kind with
  | .expression items => return items
  | .symbol _ => .error .invalidNode

/-- The parent of a node, if it has one. -/
def parent (tree : Tree) (id : NodeId) : Except Error (Option NodeId) := do
  return (← tree.node id).parent

/-- The start of an expression. -/
def first (tree : Tree) (expression : NodeId) : Except Error NodeId := do
  match (← tree.items expression).head? with
  | some id => return id
  | none => .error .nodeNotFound

/-- The rightmost symbol of an expression. -/
def last (tree : Tree) (expression : NodeId) : Except Error NodeId := do
  match (← tree.items expression).getLast? with
  | some id => return id
  | none => .error .nodeNotFound

/-- The expression in which a symbol stands, and its place there. -/
def position (tree : Tree) (id : NodeId) : Except Error (NodeId × Nat) := do
  match (← tree.node id).parent with
  | none => .error .noParent
  | some expression => match tree.items expression with
    | .error _ => .error .noParent
    | .ok items => match items.idxOf? id with
      | some index => return (expression, index)
      | none => .error .nodeNotFound

/-- The symbol before another one in its expression. -/
def leftNeighbour (tree : Tree) (id : NodeId) : Except Error (Option NodeId) := do
  let (expression, index) ← tree.position id
  let items ← tree.items expression
  return if index = 0 then none else items[index - 1]?

/-- The symbol after another one in its expression. -/
def rightNeighbour (tree : Tree) (id : NodeId) : Except Error (Option NodeId) := do
  let (expression, index) ← tree.position id
  return (← tree.items expression)[index + 1]?

/-- The characters which stand for the symbols of an expression, its start included. -/
def precis (tree : Tree) (expression : NodeId) : Except Error (List Char) := do
  (← tree.items expression).mapM fun id => return (← tree.symbol id).precis

end Tree

end FormulaEditor
