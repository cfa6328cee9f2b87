import FormulaEditor.Editor
import FormulaEditor.Proofs.Formula.Typesetting
import FormulaEditor.Proofs.Tree.Invariance
import FormulaEditor.Proofs.Tree.Placement

/-!
# Formulas put into a tree

A formula which can be typeset can be put into every expression of a well-formed tree
(`Tree.WellFormed.run_typeset`), and in an empty tree the root then denotes its normal form
(`Tree.formula_of_typeset`).
-/

set_option autoImplicit false

namespace FormulaEditor.Tree

variable {tree : Tree}

/-- A formula which cannot be typeset is refused, and the tree stays as it is. -/
theorem run_typeset_of_error {formula : Formula} {fault : ValueFault}
    (hformula : formula.typesettable = .error fault) (anchor : NodeId) (tree : Tree) :
    (typeset anchor formula).run tree = .error (.invalidValue fault) tree := by
  rw [typeset, EStateM.run_bind, Edit.run_ofExcept, hformula]
  rfl

/-- The line of a formula is put in after the anchor. -/
theorem WellFormed.run_typeset (h : tree.WellFormed) {expression anchor : NodeId}
    {owner : Option NodeId} {front back : List NodeId}
    (hexpression : tree.node? expression = some ⟨owner, .expression (front ++ anchor :: back)⟩)
    {formula : Formula} (hformula : formula.typesettable = .ok ()) :
    ∃ run grown, (typeset anchor formula).run tree = .ok (run.getLastD anchor) grown ∧
      Placed tree grown expression anchor owner front back run formula.typeset := by
  obtain ⟨run, grown, hrun, hplaced⟩ :=
    places formula.typeset tree expression anchor owner front back h hexpression
  refine ⟨run, grown, ?_, hplaced⟩
  have hmem : anchor ∈ front ++ anchor :: back := List.mem_append_right _ List.mem_cons_self
  obtain ⟨symbol, hanchor⟩ := h.node?_of_mem hexpression hmem
  obtain ⟨index, hindex⟩ := h.exists_position hanchor
  have hchecked : formula.typesettable.mapError Error.invalidValue = .ok () := by
    rw [hformula]
    rfl
  rw [typeset_eq]
  simp only [EStateM.run_bind, Edit.run_ofExcept, Edit.run_look, hchecked, hindex]
  exact hrun

/-- An expression with nothing but its start denotes the normal form of a formula after the formula
has been put into it. -/
theorem WellFormed.formula_of_run_typeset (h : tree.WellFormed) {expression start : NodeId}
    {owner : Option NodeId}
    (hexpression : tree.node? expression = some ⟨owner, .expression [start]⟩)
    {formula : Formula} (hformula : formula.typesettable = .ok ()) :
    ∃ last grown, (typeset start formula).run tree = .ok last grown ∧
      grown.formula expression = .ok formula.normal := by
  obtain ⟨run, grown, hrun, hplaced⟩ := @run_typeset _ h _ _ _ [] [] hexpression _ hformula
  have hstart : grown.glyph? start = none := by
    obtain ⟨first, others, heq, hfirst, -⟩ := (h.lists hexpression).start
    cases heq
    have hne : start ≠ expression := by
      rintro rfl
      rw [hexpression] at hfirst
      cases hfirst
    exact glyph?_of_node? (hplaced.spares start _ hne hfirst)
  have hline : grown.line expression = formula.typeset := by
    rw [hplaced.wellFormed.line_eq hplaced.listing, List.nil_append, List.filterMap_cons, hstart,
      List.append_nil]
    exact hplaced.shows
  refine ⟨_, grown, hrun, ?_⟩
  rw [Tree.formula, items_of_node? hplaced.listing]
  show Line.formula (grown.line expression) = _
  rw [hline]
  exact Formula.formula_typeset hformula

/-- A formula which can be typeset is put after the start of the root of an empty tree, and then the
root denotes its normal form, and the formula itself exactly if that is its own normal form. -/
theorem formula_of_typeset {formula : Formula} (h : formula.typesettable = .ok ()) :
    ∃ last tree, (typeset Editor.home formula).run empty = .ok last tree ∧
      tree.formula root = .ok formula.normal ∧
        (tree.formula root = .ok formula ↔ formula.normal = formula) := by
  obtain ⟨last, tree, hrun, hformula⟩ :=
    wellFormed_empty.formula_of_run_typeset (node?_empty root) h
  refine ⟨last, tree, hrun, hformula, ?_⟩
  rw [hformula]
  exact ⟨Except.ok.inj, congrArg Except.ok⟩

/-- A product with negative numbers, names of constants, bars inside bars and a root of degree two
is put into an empty tree, and its normal form is read. -/
theorem formula_of_typeset_product :
    let formula : Formula := .apply .times
      [.apply .plus [.number "-1", .identifier 'e', .number "2.5"],
        .apply .power
          [.apply .minus [.identifier 'x'], .apply .abs [.apply .abs [.identifier 'π']]],
        .apply .root [.degree (.number "02.0"), .apply .sin [.identifier 'y']]]
    formula.typesettable = .ok () ∧ ∃ last tree,
      (typeset Editor.home formula).run empty = .ok last tree ∧
        tree.formula root = .ok (.binary .times
          (.binary .plus (.binary .plus (.unary .minus (.number "1")) (.constant .exponentialE))
            (.number "2.5"))
          (.binary .times
            (.binary .power (.unary .minus (.identifier 'x'))
              (.unary .abs (.unary .abs (.constant .pi))))
            (.squareRoot (.unary .sin (.identifier 'y'))))) := by
  intro formula
  have htypesettable : formula.typesettable = .ok () := rfl
  obtain ⟨last, tree, hrun, hformula, -⟩ := formula_of_typeset htypesettable
  exact ⟨htypesettable, last, tree, hrun, hformula⟩

end FormulaEditor.Tree
