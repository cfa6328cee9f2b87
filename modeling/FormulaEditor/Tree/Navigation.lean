import FormulaEditor.Tree.Walk

/-!
# Navigation

The cursor is a symbol, and stands directly after it. Moving to the right or left follows the
line, into composite symbols through their first slot and out of them at its ends. Moving up or
down goes to the other side of the innermost fraction which has the cursor on the side to leave.
Where there is nowhere to go, the cursor stays.
-/

set_option autoImplicit false

namespace FormulaEditor

/-- A direction in which the cursor moves. -/
inductive Direction
  | left
  | right
  | up
  | down
  deriving DecidableEq, Repr

/-- The slot of a fraction to which a move out of another slot leads. -/
def Symbol.opposite? (direction : Direction) (slot : NodeId) : Symbol → Option NodeId
  | .fraction numerator denominator => match direction with
    | .down => if slot = numerator then some denominator else none
    | .up => if slot = denominator then some numerator else none
    | .left | .right => none
  | _ => none

namespace Tree

/-- Where the cursor lands when it moves to the right onto a symbol. -/
def landingRightward (tree : Tree) (id : NodeId) : Except Error NodeId := do
  match (← tree.symbol id).slots with
  | slot :: _ => tree.first slot
  | [] => return id

/-- Where the cursor lands when it moves to the left from directly after a symbol. -/
def landingLeftward (tree : Tree) (id : NodeId) : Except Error NodeId := do
  match (← tree.symbol id).slots with
  | slot :: _ => tree.last slot
  | [] => return id

/-- The symbol to the right of the cursor. -/
def moveRight (tree : Tree) (cursor : NodeId) : Except Error NodeId := do
  match ← tree.rightNeighbour cursor with
  | some next => tree.landingRightward next
  | none =>
    let (expression, _) ← tree.position cursor
    return (← tree.parent expression).getD cursor

/-- The symbol to the left of the cursor. Before a symbol which stands nowhere there is nothing.
-/
def moveLeft (tree : Tree) (cursor : NodeId) : Except Error NodeId := do
  if (← tree.symbol cursor).isComposite then tree.landingLeftward cursor
  else match ← tree.leftNeighbour cursor with
    | some previous => return previous
    | none =>
      let (expression, _) ← tree.position cursor
      match ← tree.parent expression with
      | none => return cursor
      | some owner => match tree.leftNeighbour owner with
        | .ok previous => return previous.getD cursor
        | .error .noParent => return cursor
        | .error e => .error e

/-- The first slot on the way up which a move can leave for its opposite. The way goes through
expressions and their owners by turns. -/
def crossing (tree : Tree) (direction : Direction) : List NodeId → Except Error (Option NodeId)
  | slot :: owner :: above => do
    match (← tree.symbol owner).opposite? direction slot with
    | some opposite => return some opposite
    | none => crossing tree direction above
  | _ => return none

/-- The symbol to which the cursor moves up or down. -/
def moveAcross (tree : Tree) (cursor : NodeId) (direction : Direction) : Except Error NodeId := do
  if (← tree.parent cursor).isNone then .error .noParent
  match ← tree.crossing direction ((tree.ancestors cursor).drop 1) with
  | some slot => tree.first slot
  | none => return cursor

/-- The symbol to which the cursor moves. -/
def navigate (tree : Tree) (cursor : NodeId) : Direction → Except Error NodeId
  | .left => tree.moveLeft cursor
  | .right => tree.moveRight cursor
  | .up => tree.moveAcross cursor .up
  | .down => tree.moveAcross cursor .down

end Tree

end FormulaEditor
