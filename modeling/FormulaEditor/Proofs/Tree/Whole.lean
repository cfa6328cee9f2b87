import FormulaEditor.Proofs.Tree.Numerator
import FormulaEditor.Proofs.Tree.Typesetting

/-!
# Edits of whole trees

A symbol is loose between its making and its first move, so making symbols and putting them in only
restores that a tree is whole. All other edits keep it.
-/

set_option autoImplicit false

namespace FormulaEditor.Tree

open Edit

variable {tree : Tree} {expression : NodeId}

/-- The empty tree is whole. -/
theorem whole_empty : empty.Whole :=
  ⟨wellFormed_empty, connected_empty⟩

/-- Whether a tree is whole depends only on its nodes. -/
theorem Whole.congr {other : Tree} (h : tree.Whole)
    (same : ∀ id, other.node? id = tree.node? id) : other.Whole :=
  ⟨h.wellFormed.congr same, connected_congr same h.connected⟩

/-- Inserting a symbol keeps a tree whole. -/
theorem keeps_whole_insertAfter (anchor id : NodeId) : Keeps Whole (insertAfter anchor id) :=
  keeps_insertAfter_of Whole.wellFormed (fun h hdest => ⟨h.wellFormed.moveAfter hdest,
    (h.connected.connectedBut _).moveAfter h.wellFormed hdest⟩) anchor id

/-- Deleting a symbol keeps a tree whole. -/
theorem keeps_whole_delete (id : NodeId) : Keeps Whole (Tree.delete id) := by
  intro tree h
  unfold Edit.after
  rw [h.wellFormed.run_delete]
  cases hdel : tree.deletion id with
  | ok deletion => exact ⟨h.wellFormed.delete hdel, h.connected.delete h.wellFormed hdel⟩
  | error e => exact h

/-- Filling a numerator keeps a tree whole. -/
theorem keeps_whole_fillNumerator (id : NodeId) : Keeps Whole (fillNumerator id) :=
  (composes_keeps Whole).fillNumerator keeps_whole_insertAfter id

/-- If a symbol can be added, it is made and put in. -/
theorem WellFormed.of_run_add (h : tree.WellFormed) {anchor id : NodeId} {stroke : Stroke}
    {grown : Tree} (hrun : (add anchor stroke).run tree = .ok id grown) :
    id = tree.nextId ∧ ∃ expression,
      (tree.pushSymbol stroke).destination anchor tree.nextId = .ok expression ∧
      grown = (tree.pushSymbol stroke).moveAfter anchor tree.nextId expression := by
  obtain ⟨_, _, hcreate, hrest⟩ := run_bind_eq_ok.mp hrun
  cases hcreate
  obtain ⟨_, _, hinsert, hreturn⟩ := run_bind_eq_ok.mp hrest
  cases hreturn
  rw [(h.pushSymbol stroke).run_insertAfter] at hinsert
  cases hdest : (tree.pushSymbol stroke).destination anchor tree.nextId with
  | ok expression =>
    rw [hdest] at hinsert
    cases hinsert
    exact ⟨rfl, expression, rfl, rfl⟩
  | error e =>
    rw [hdest] at hinsert
    cases hinsert

/-- The new symbol is the only loose one, and it is put in. -/
theorem restores_whole_add (anchor : NodeId) (stroke : Stroke) :
    Restores Whole (add anchor stroke) := by
  intro tree id grown h hrun
  have hpushed := h.wellFormed.pushSymbol stroke
  obtain ⟨-, expression, hdest, rfl⟩ := h.wellFormed.of_run_add hrun
  exact ⟨hpushed.moveAfter hdest, (h.connected.pushSymbol stroke).moveAfter hpushed hdest⟩

/-- Typesetting a formula restores that a tree is whole. -/
theorem restores_whole_typeset (anchor : NodeId) (formula : Formula) :
    Restores Whole (typeset anchor formula) :=
  (composes_restores Whole).typeset restores_whole_add anchor formula

end FormulaEditor.Tree
