import FormulaEditor.Proofs.Formula.Markup
import FormulaEditor.Proofs.Formula.Spacing
import FormulaEditor.Proofs.Line.Denotation
import FormulaEditor.Proofs.Session
import FormulaEditor.Proofs.Tree.Typesetting

/-!
# Formulas there and back

The formula of an expression can be written as a text in either form, and an editor which is made
from that text holds the same formula again (`Tree.ofText_text_of_formula`). The formula is
canonical, so its text is read as the formula, and when it is put into the empty tree of the new
editor, the root denotes its normal form, which is the formula itself.
-/

set_option autoImplicit false

namespace FormulaEditor

/-- A canonical formula is what its text denotes in either form. -/
theorem Formula.Canonical.ofText_text {formula : Formula} (h : formula.Canonical)
    (format : Format) : Formula.ofText (format.text formula) = .ok formula := by
  cases format with
  | compact => exact Formula.ofText_compact h.spelled h.check_eq
  | mathml => exact Formula.ofText_mathml h.spelled h.check_eq

/-- An editor made from a text has the formula of the text put into its empty tree. -/
theorem Editor.ofText_eq_ok {text : String} {formula : Formula} {last : NodeId} {tree : Tree}
    (htext : Formula.ofText text = .ok formula)
    (hrun : (Tree.typeset home formula).run .empty = .ok last tree) :
    Editor.ofText text = .ok ⟨tree, last, {}⟩ := by
  have honTree : (onTree (Tree.typeset home formula)).run (new {}) =
      .ok last ⟨tree, home, {}⟩ := by
    have hempty : (new {}).tree = .empty := rfl
    rw [run_onTree, hempty, hrun]
    rfl
  have hinsert : (insertText text).run (new {}) = .ok () ⟨tree, last, {}⟩ := by
    rw [insertText, EStateM.run_bind, Edit.run_ofExcept, htext]
    show ((onTree (Tree.typeset home formula)) >>= moveTo).run (new {}) = _
    rw [EStateM.run_bind, honTree]
    rfl
  rw [Editor.ofText, hinsert]

/-- An editor made from the text of a canonical formula holds that formula. -/
theorem Formula.Canonical.exists_editor {formula : Formula} (h : formula.Canonical)
    (format : Format) :
    ∃ editor, Editor.ofText (format.text formula) = .ok editor ∧ editor.formula = .ok formula := by
  obtain ⟨last, tree, hrun, hformula⟩ :=
    Tree.wellFormed_empty.formula_of_run_typeset (Tree.node?_empty Tree.root) h.typesettable_eq
  rw [h.normal_eq] at hformula
  exact ⟨_, Editor.ofText_eq_ok (h.ofText_text format) hrun, hformula⟩

namespace Tree

/-- The formula of an expression is canonical. -/
theorem canonical_of_formula {tree : Tree} {expression : NodeId} {formula : Formula}
    (h : tree.formula expression = .ok formula) : formula.Canonical := by
  rw [Tree.formula] at h
  cases hitems : tree.items expression with
  | error e =>
    rw [hitems] at h
    cases h
  | ok items =>
    rw [hitems] at h
    exact Line.canonical_of_formula h

/-- The formula of an expression of any tree can be written as a text in either form, and the editor
which is made from that text holds the same formula. The tree need not even be one to which a
session leads. -/
theorem ofText_text_of_formula {tree : Tree} {expression : NodeId} {formula : Formula}
    (h : tree.formula expression = .ok formula) (format : Format) :
    ∃ editor, Editor.ofText (format.text formula) = .ok editor ∧ editor.formula = .ok formula :=
  (canonical_of_formula h).exists_editor format

/-- What is typed as `-(ab)`, with the exponent `3`, is held by the editors which are made from its
texts. -/
theorem ofText_text_typed_power :
    let tree := empty.run
      [.create (.atom '-'), .insertAfter 1 2, .create (.bracket .opening), .insertAfter 2 3,
        .create (.atom 'a'), .insertAfter 3 4, .create (.atom 'b'), .insertAfter 4 5,
        .create (.bracket .closing), .insertAfter 5 6, .create .superscript, .insertAfter 6 7,
        .create (.atom '3'), .insertAfter 9 10]
    let formula : Formula := .unary .minus
      (.binary .power (.binary .times (.identifier 'a') (.identifier 'b')) (.number "3"))
    tree.Reachable ∧ tree.formula root = .ok formula ∧ ∀ format : Format, ∃ editor,
      Editor.ofText (format.text formula) = .ok editor ∧ editor.formula = .ok formula := by
  intro tree formula
  have hformula : tree.formula root = .ok formula := by decide +kernel
  exact ⟨reachable_run _, hformula, fun format => ofText_text_of_formula hformula format⟩

end Tree

end FormulaEditor
