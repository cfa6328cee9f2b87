import FormulaEditor.Formula.Compact
import FormulaEditor.Formula.MathML
import FormulaEditor.Formula.Reading
import FormulaEditor.Tree.Formula
import FormulaEditor.Tree.Navigation
import FormulaEditor.Tree.Numerator

/-!
# Editors

An editor is a tree with a cursor, a symbol which the cursor stands directly after, and settings.
Keys become strokes which are put in at the cursor, moves of the cursor, and deletions of the
symbol before it. The value of the field is the text of the formula which the root denotes.
-/

set_option autoImplicit false

namespace FormulaEditor

/-- A textual form of formulas. -/
inductive Format
  | compact
  | mathml
  deriving DecidableEq, Repr

/-- The text of a formula in one of the forms. -/
def Format.text : Format → Formula → String
  | compact, formula => formula.compact
  | mathml, formula => formula.mathml

/-- What can be chosen about an editor. -/
structure Settings where
  /-- Whether a new fraction takes what stands before it into its numerator. -/
  fillsNumerator : Bool := true
  /-- The form in which the editor gives its value. -/
  format : Format := .compact
  deriving DecidableEq, Repr

/-- An editable field. -/
structure Editor where
  tree : Tree
  /-- The symbol which the cursor stands directly after. -/
  cursor : NodeId
  settings : Settings
  deriving DecidableEq, Repr

namespace Editor

/-- The start of the root. -/
def home : NodeId := 1

/-- An editor with nothing in it. -/
def new (settings : Settings) : Editor :=
  ⟨.empty, home, settings⟩

/-- The precis of the root. -/
def precis (editor : Editor) : Except Error (List Char) :=
  editor.tree.precis Tree.root

/-- The formula in the field. -/
def formula (editor : Editor) : Outcome :=
  editor.tree.formula Tree.root

/-- The text of the formula in the field. -/
def value (editor : Editor) : Except Error String := do
  return editor.settings.format.text (← editor.formula)

/-- Changes the tree of an editor, and leaves the cursor where it is. -/
def onTree {α : Type} (edit : Edit Tree α) : Edit Editor α := fun ⟨tree, cursor, settings⟩ =>
  match edit.run tree with
  | .ok answer tree => .ok answer ⟨tree, cursor, settings⟩
  | .error error tree => .error error ⟨tree, cursor, settings⟩

/-- Puts the cursor somewhere. -/
def moveTo (id : NodeId) : Edit Editor Unit :=
  modify ({ · with cursor := id })

/-- Puts the cursor directly after a symbol which can be reached from the root. -/
def setCursor (id : NodeId) : Edit Editor Unit := do
  let _ ← Edit.look (·.tree.symbol id)
  if (← get).tree.isReachable id then moveTo id else throw .nodeNotFound

/-- Where typing goes on after a symbol has been put in: in the denominator of a fraction which
collected a numerator, otherwise in the first slot of the symbol, or after the symbol if it has
none. -/
def continuation (id : NodeId) (symbol : Symbol) (collected : Bool) (tree : Tree) :
    Except Error NodeId :=
  match symbol with
  | .fraction numerator denominator => tree.first (if collected then denominator else numerator)
  | .superscript slot | .radical slot => tree.first slot
  | .start | .atom _ | .bracket _ | .bar => .ok id

/-- Puts a stroke in at the cursor, and moves the cursor to where typing goes on. -/
def insert (stroke : Stroke) : Edit Editor NodeId := do
  let cursor := (← get).cursor
  let fills := (← get).settings.fillsNumerator
  let _ ← Edit.look (·.tree.position cursor)
  let id ← onTree (Tree.add cursor stroke)
  let symbol ← Edit.look (·.tree.symbol id)
  let collected ← if stroke = .fraction ∧ fills
    then onTree (Tree.fillNumerator id) else pure false
  moveTo (← Edit.look fun editor => continuation id symbol collected editor.tree)
  return id

/-- Puts in what a character stands for. -/
def insertChar (c : Char) : Edit Editor NodeId := do
  insert (← Edit.ofExcept (Stroke.ofChar c))

/-- Puts in what a name stands for. -/
def insertName (name : String) : Edit Editor NodeId := do
  insert (← Edit.ofExcept (Stroke.ofName name))

/-- Moves the cursor, and answers where it is then. -/
def navigate (direction : Direction) : Edit Editor NodeId := do
  let id ← Edit.look fun editor => editor.tree.navigate editor.cursor direction
  moveTo id
  return id

/-- Deletes the symbol before the cursor, and tells whether there was one. The start of an
expression is not deleted. -/
def backspace : Edit Editor Bool := do
  let cursor := (← get).cursor
  match ← Edit.look (·.tree.leftNeighbour cursor) with
  | none => return false
  | some previous =>
    moveTo previous
    onTree (Tree.delete cursor)
    return true

/-- Starts again with nothing in the field. -/
def clear : Edit Editor Unit := do
  onTree Tree.clear
  moveTo home

/-- Puts in the formula which a text denotes, in either form, and leaves the cursor after it. -/
def insertText (text : String) : Edit Editor Unit := do
  let formula ← Edit.ofExcept (Formula.ofText text)
  moveTo (← onTree (Tree.typeset (← get).cursor formula))

/-- An editor which holds the formula which a text denotes. -/
def ofText (text : String) : Except Error Editor :=
  match (insertText text).run (new {}) with
  | .ok _ editor => .ok editor
  | .error error _ => .error error

end Editor

end FormulaEditor
