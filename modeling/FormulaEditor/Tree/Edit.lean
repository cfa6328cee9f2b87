import FormulaEditor.Edit
import FormulaEditor.Tree.Walk

/-!
# Changing a tree

Symbols are created outside of every expression, spliced into one after another symbol, moved and
deleted. A move and a deletion check what they are asked to do, take the symbol out of its
expression, and then ask the changed tree for what they need further. Whenever the list of an
expression changes, the expression and all nodes above it are marked for layout.
-/

set_option autoImplicit false

namespace FormulaEditor.Tree

/-- Changes what is kept under a name. -/
def modifyCell (tree : Tree) (id : NodeId) (change : Cell → Cell) : Tree :=
  ⟨tree.cells.modify id change⟩

/-- Marks nodes for layout. -/
def markAll (tree : Tree) (ids : List NodeId) : Tree :=
  ids.foldl (fun tree id => tree.modifyCell id ({ · with marked := true })) tree

/-- Marks a node and all nodes above it for layout. -/
def mark (tree : Tree) (id : NodeId) : Tree :=
  tree.markAll (tree.ancestors id)

/-- Changes a live node. -/
def update (tree : Tree) (id : NodeId) (change : Node → Node) : Tree :=
  tree.modifyCell id fun cell => { cell with node := cell.node.map change }

/-- Adds a node under the next name. -/
def push (tree : Tree) (node : Node) : Tree :=
  ⟨tree.cells.push ⟨some node, false⟩⟩

/-- Adds an expression with nothing but its start in it. -/
def pushExpression (tree : Tree) (owner : Option NodeId) : Tree :=
  (tree.push ⟨owner, .expression [tree.nextId + 1]⟩).push ⟨some tree.nextId, .symbol .start⟩

/-- Adds a symbol which stands nowhere, and its slots. -/
def pushSymbol (tree : Tree) (stroke : Stroke) : Tree :=
  let symbol := stroke.symbol tree.nextId
  symbol.slots.foldl (fun grown _ => grown.pushExpression (some tree.nextId))
    (tree.push ⟨none, .symbol symbol⟩)

/-- Takes a symbol out of the expression in which it stands. -/
def detach (tree : Tree) (id expression : NodeId) : Tree :=
  ((tree.update expression (.mapItems (List.erase · id))).update id
    (.withParent none)).mark expression

/-- A list with `id` put in directly after `anchor`. -/
def spliceAfter (anchor id : NodeId) : List NodeId → List NodeId
  | [] => []
  | item :: items =>
    if item = anchor then item :: id :: items else item :: spliceAfter anchor id items

/-- Puts a symbol which stands nowhere into an expression, directly after another symbol. -/
def attach (tree : Tree) (anchor id expression : NodeId) : Tree :=
  ((tree.update expression (.mapItems (spliceAfter anchor id))).update id
    (.withParent (some expression))).mark expression

/-- Removes nodes from the tree. -/
def killAll (tree : Tree) (ids : List NodeId) : Tree :=
  ids.foldl (fun tree id => tree.modifyCell id ({ · with node := none })) tree

/-- The nodes which are live and marked for layout, in ascending order. -/
def markedNodes (tree : Tree) : List NodeId :=
  (List.range tree.cells.size).filter fun id => tree.isLive id && tree.isMarked id

/-- Takes all marks away. -/
def unmark (tree : Tree) : Tree :=
  ⟨tree.cells.map ({ · with marked := false })⟩

/-- Checks that a symbol can be moved or deleted: every symbol can, except the start of an
expression. -/
def checkMovable (tree : Tree) (id : NodeId) : Except Error Unit := do
  if (← tree.symbol id) = .start then .error .invalidNode

/-- The expression into which a symbol comes if it is put in after `anchor`. -/
def destination (tree : Tree) (anchor id : NodeId) : Except Error NodeId := do
  tree.checkMovable id
  let _ ← tree.symbol anchor
  if tree.contains id anchor then .error .cyclicInsert
  return (← tree.position anchor).1

/-- Creates a symbol which stands nowhere, with empty slots. -/
def create (stroke : Stroke) : Edit Tree NodeId := do
  let id := (← get).nextId
  modify (·.pushSymbol stroke)
  return id

/-- Takes a symbol out of the expression in which it stands. -/
def takeOut (id : NodeId) : Edit Tree Unit := do
  let (expression, _) ← Edit.look (·.position id)
  modify (·.detach id expression)

/-- Takes a symbol out of the expression in which it stands, if it stands in one. -/
def release (id : NodeId) : Edit Tree Unit := do
  if (← Edit.look (·.parent id)).isSome then takeOut id

/-- Puts a symbol directly after another one. A symbol which stands somewhere is moved, and since
that may shift the other one, its place is looked up after the move has begun. -/
def insertAfter (anchor id : NodeId) : Edit Tree Unit := do
  let expression ← Edit.look (·.destination anchor id)
  release id
  let _ ← Edit.look (·.position anchor)
  modify (·.attach anchor id expression)

/-- Creates a symbol directly after another one. -/
def add (anchor : NodeId) (stroke : Stroke) : Edit Tree NodeId := do
  let id ← create stroke
  insertAfter anchor id
  return id

/-- Deletes a symbol with everything inside it, after taking it out of its expression. -/
def delete (id : NodeId) : Edit Tree Unit := do
  Edit.look (·.checkMovable id)
  takeOut id
  let dead ← Edit.look (·.descendants id)
  modify (·.killAll dead)

/-- Starts again with nothing in the root, which has to be laid out. -/
def clear : Edit Tree Unit :=
  set (empty.mark root)

/-- The live nodes which may look different since the last call, which are thereby dealt with. -/
def takeMarked : Edit Tree (List NodeId) := do
  let ids := (← get).markedNodes
  modify unmark
  return ids

end FormulaEditor.Tree
