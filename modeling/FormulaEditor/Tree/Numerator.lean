import FormulaEditor.Text.Numeric
import FormulaEditor.Tree.Edit

/-!
# Collecting a numerator

When a fraction is typed after something, that becomes its numerator: a run of letters and digits,
or a whole group between round brackets, brackets included. Anything else stays where it is.
-/

set_option autoImplicit false

namespace FormulaEditor

namespace Numerator

/-- The length of a bracketed group, given backwards: up to the opening bracket with which as many
brackets are opened as closed. `depth` brackets have been closed already. -/
def groupLength : Nat → List Char → Option Nat
  | _, [] => none
  | depth, c :: cs =>
    if c = ')' then (groupLength (depth + 1) cs).map (· + 1)
    else if c = '(' then match depth with
      | 0 => none
      | 1 => some 1
      | outer + 2 => (groupLength (outer + 1) cs).map (· + 1)
    else (groupLength depth cs).map (· + 1)

/-- How many symbols at the end of a precis go into a numerator. The precis is given backwards. -/
def runLength : List Char → Nat
  | [] => 0
  | c :: cs =>
    if Text.isAlphanumeric c then ((c :: cs).takeWhile Text.isAlphanumeric).length
    else if c = ')' then (groupLength 0 (c :: cs)).getD 0
    else 0

end Numerator

namespace Tree

/-- The symbols before a fraction which go into its numerator, and the start of the numerator. -/
def numeratorRun (tree : Tree) (id : NodeId) : Except Error (List NodeId × NodeId) := do
  match ← tree.symbol id with
  | .fraction numerator _ =>
    let (expression, index) ← tree.position id
    let preceding := ((← tree.items expression).take index).drop 1
    let precis ← preceding.mapM fun item => return (← tree.symbol item).precis
    let kept := preceding.length - Numerator.runLength precis.reverse
    return (preceding.drop kept, ← tree.first numerator)
  | _ => .error .invalidNode

/-- Moves what stands before a fraction into its numerator, and tells whether there was anything
to move. The symbols are moved from right to left, each to the front, which keeps their order. -/
def fillNumerator (id : NodeId) : Edit Tree Bool := do
  let (run, start) ← Edit.look (·.numeratorRun id)
  run.reverse.forM (insertAfter start)
  return !run.isEmpty

end Tree

end FormulaEditor
