import FormulaEditor.Line.Glyph
import FormulaEditor.Tree.Basic

/-!
# Walking a tree

Upward, a node leads to its parent and so on to a node without one (`Tree.ancestors`). Downward,
it leads to everything inside it, in display order (`Tree.descendants`), and an expression to the
line which it shows (`Tree.line`). In a tree without cycles a walk passes each node at most once,
so the number of nodes bounds its length.
-/

set_option autoImplicit false

namespace FormulaEditor.Tree

/-- A node and the nodes above it, the nearest first, as far as the fuel goes. -/
def ancestorsWithin (tree : Tree) : Nat → NodeId → List NodeId
  | 0, _ => []
  | fuel + 1, id => id :: match tree.parent? id with
    | none => []
    | some parent => ancestorsWithin tree fuel parent

/-- A node and the nodes above it, the nearest first. -/
def ancestors (tree : Tree) (id : NodeId) : List NodeId :=
  tree.ancestorsWithin (tree.cells.size + 1) id

/-- Whether a node is another one or above it. -/
def contains (tree : Tree) (ancestor id : NodeId) : Bool :=
  (tree.ancestors id).contains ancestor

/-- Whether a node is live and can be reached from the root. -/
def isReachable (tree : Tree) (id : NodeId) : Bool :=
  tree.isLive id && tree.contains root id

/-- A node and everything below it in display order, as far as the fuel goes. -/
def descendantsWithin (tree : Tree) : Nat → NodeId → Except Error (List NodeId)
  | 0, _ => .ok []
  | fuel + 1, id => do
    let below := (← tree.node id).below
    return id :: (← below.mapM (descendantsWithin tree fuel)).flatten

/-- A node and everything below it in display order. -/
def descendants (tree : Tree) (id : NodeId) : Except Error (List NodeId) :=
  tree.descendantsWithin (tree.cells.size + 1) id

/-- What an expression shows, as far as the fuel goes. -/
def lineWithin (tree : Tree) : Nat → NodeId → Line
  | 0, _ => []
  | fuel + 1, expression => ((tree.items expression).toOption.getD []).filterMap fun id =>
    match tree.symbol id with
    | .ok (.atom c) => some (.atom c)
    | .ok (.bracket side) => some (.bracket side)
    | .ok .bar => some .bar
    | .ok (.fraction numerator denominator) =>
      some (.fraction (lineWithin tree fuel numerator) (lineWithin tree fuel denominator))
    | .ok (.superscript exponent) => some (.superscript (lineWithin tree fuel exponent))
    | .ok (.radical radicand) => some (.radical (lineWithin tree fuel radicand))
    | .ok .start | .error _ => none

/-- What an expression shows after its start. -/
def line (tree : Tree) (expression : NodeId) : Line :=
  tree.lineWithin (tree.cells.size + 1) expression

end FormulaEditor.Tree
