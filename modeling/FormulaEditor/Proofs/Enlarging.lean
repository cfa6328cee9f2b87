import FormulaEditor.Proofs.Sealed
import FormulaEditor.Proofs.Tree.Enlarging

/-!
# Typing loses nothing

What is put into an editor comes between what is there (`Tree.Enlarged`). This is so for every
stroke and for every text, wherever the cursor is, and also where a fraction takes symbols into its
numerator (`Editor.Sealed.insertion_enlarges`).
-/

set_option autoImplicit false

namespace FormulaEditor

open Edit

namespace Tree

variable {tree other : Tree}

/-- One tree has what another one has and nothing of it has changed its place among the rest. New
are the nodes with the names which have been given since, and no others. -/
structure Enlarged (tree other : Tree) : Prop where
  /-- What the walk downwards from the root finds is found in the same order as before. -/
  walk : ∃ ids ids', tree.descendants root = .ok ids ∧ other.descendants root = .ok ids' ∧
    ids.Sublist ids' ∧ ∀ y, y ∈ ids' ∧ y ∉ ids ↔ tree.nextId ≤ y ∧ y < other.nextId
  live : ∀ y, tree.isLive y = true → other.isLive y = true
  symbol : ∀ y symbol, tree.symbol y = .ok symbol → other.symbol y = .ok symbol

/-- The root of a tree in which nothing is loose is live. -/
theorem Whole.isLive_root (h : tree.Whole) : tree.isLive root = true := by
  obtain ⟨items, hroot⟩ := h.wellFormed.root
  exact isLive_iff.mpr ⟨_, hroot⟩

/-- In a whole tree everything is found from the root. -/
theorem Whole.mem_inner_root (h : tree.Whole) {y : NodeId} :
    y ∈ tree.inner root ↔ tree.isLive y = true := by
  rw [h.wellFormed.mem_inner_iff h.isLive_root]
  exact and_iff_left_of_imp (h.connected y)

/-- A whole tree which grows into another one shows everything in the same order afterwards, with
the new nodes in between. -/
theorem Whole.enlarged (htree : tree.Whole) (hother : other.Whole) (h : tree.GrowsInto other) :
    tree.Enlarged other where
  walk := by
    refine ⟨_, _, htree.wellFormed.descendants_eq_inner htree.isLive_root,
      hother.wellFormed.descendants_eq_inner hother.isLive_root,
      h.sublist_inner htree.wellFormed hother.wellFormed htree.isLive_root, fun y => ?_⟩
    rw [htree.mem_inner_root, hother.mem_inner_root, h.isLive_iff]
    refine ⟨fun ⟨hlive, hdead⟩ => hlive.resolve_left hdead, fun hnew => ⟨.inr hnew, ?_⟩⟩
    intro hlive
    obtain ⟨node, hnode⟩ := isLive_iff.mp hlive
    exact Nat.lt_irrefl _ ((lt_nextId_of_node? hnode).trans_le hnew.1)
  live _ hlive := h.isLive_iff.mpr (.inl hlive)
  symbol _ _ hsymbol := h.symbol hsymbol

end Tree

namespace Editor

variable {editor : Editor}

/-- Typing a stroke lets the tree of an editor grow. -/
theorem growsInto_of_run_insert (h : editor.tree.WellFormed) {stroke : Stroke} {id : NodeId}
    {next : Editor} (hrun : (insert stroke).run editor = .ok id next) :
    editor.tree.GrowsInto next.tree := by
  obtain ⟨place, made, hposition, hadd, rfl | ⟨rfl, collected, hfill⟩⟩ :=
    exists_add_of_run_insert hrun
  · exact (h.growsInto_of_run_add hadd).2
  · obtain ⟨symbol, hcursor⟩ := h.node?_of_position hposition
    obtain ⟨owner, front, back, hexpression, -⟩ := h.exists_split hcursor
    exact h.growsInto_of_fraction hexpression hadd hfill

/-- As long as only its own calls change an editor, whatever is put into it comes between what is
there. Of that nothing is lost, nothing changes and nothing is put in another order, whether or not
a new fraction takes symbols into its numerator. New are just the nodes which have been made, among
them the symbol with which the insertion of a stroke answers. -/
theorem Sealed.insertion_enlarges (h : editor.Sealed) :
    (∀ stroke id next, (insert stroke).run editor = .ok id next →
      editor.tree.Enlarged next.tree ∧ editor.tree.nextId ≤ id ∧ id < next.tree.nextId) ∧
    ∀ text next, (insertText text).run editor = .ok () next → editor.tree.Enlarged next.tree := by
  have hwhole := h.sound.whole
  constructor
  · intro stroke id next hrun
    obtain ⟨rfl, hlive⟩ := insert_eq_ok hwhole.wellFormed hrun
    obtain ⟨node, hid⟩ := Tree.isLive_iff.mp hlive
    exact ⟨hwhole.enlarged (restores_whole_insert stroke _ _ _ hwhole hrun)
      (growsInto_of_run_insert hwhole.wellFormed hrun), Nat.le_refl _, Tree.lt_nextId_of_node? hid⟩
  · intro text next hrun
    obtain ⟨formula, last, htypeset⟩ := exists_typeset_of_run_insertText hrun
    exact hwhole.enlarged (restores_whole_insertText text _ _ _ hwhole hrun)
      (hwhole.wellFormed.growsInto_of_run_typeset htypeset)

set_option maxRecDepth 10000 in
/-- When a fraction is typed before the last letter of `2ab`, the rest goes into its numerator, and
when a power is put into its denominator, that comes between the numerator and the last letter. -/
theorem enlarged_typed_fraction :
    let editor := session [.own (.insertChar '2'), .own (.insertChar 'a'), .own (.insertChar 'b'),
      .own (.navigate .left)] (new {})
    let divided := (Call.insert .fraction).edit.after editor
    let filled := (Call.insertText "apply(power, ci(x), cn(2))").edit.after divided
    editor.Sealed ∧ (∃ id, (insert .fraction).run editor = .ok id divided) ∧
      editor.tree.Enlarged divided.tree ∧ divided.Sealed ∧
      (insertText "apply(power, ci(x), cn(2))").run divided = .ok () filled ∧
      divided.tree.Enlarged filled.tree ∧
      editor.tree.descendants Tree.root = .ok [0, 1, 2, 3, 4] ∧
      divided.tree.descendants Tree.root = .ok [0, 1, 5, 6, 7, 2, 3, 8, 9, 4] ∧
      filled.tree.descendants Tree.root =
        .ok [0, 1, 5, 6, 7, 2, 3, 8, 9, 10, 11, 12, 13, 14, 4] := by
  intro editor divided filled
  have hsealed : editor.Sealed := .call (.navigate .left)
    (.call (.insertChar 'b') (.call (.insertChar 'a') (.call (.insertChar '2') (.new {}))))
  have hdivided : divided.Sealed := .call _ hsealed
  have hwalk : editor.tree.descendants Tree.root = .ok [0, 1, 2, 3, 4] := by decide +kernel
  have hwalk' : divided.tree.descendants Tree.root = .ok [0, 1, 5, 6, 7, 2, 3, 8, 9, 4] := by
    decide +kernel
  have hwalk'' : filled.tree.descendants Tree.root =
      .ok [0, 1, 5, 6, 7, 2, 3, 8, 9, 10, 11, 12, 13, 14, 4] := by decide +kernel
  have hinsert : divided = (insert .fraction).after editor := after_map _ _ editor
  have hinsertText : filled = (insertText "apply(power, ci(x), cn(2))").after divided := rfl
  -- from here on only these facts count, and nothing has to be evaluated any more
  clear_value filled divided editor
  obtain ⟨id, next, hrun, -⟩ := hsealed.sound.run_insert .fraction
  rw [after_of_ok hrun] at hinsert
  subst hinsert
  obtain ⟨fault, hrun'⟩ | ⟨next', hrun', -⟩ :=
    hdivided.sound.run_insertText "apply(power, ci(x), cn(2))"
  · -- a text which is refused changes nothing
    rw [hinsertText, after_of_error hrun', hwalk'] at hwalk''
    cases hwalk''
  · rw [after_of_ok hrun'] at hinsertText
    subst hinsertText
    exact ⟨hsealed, ⟨id, hrun⟩, (hsealed.insertion_enlarges.1 _ _ _ hrun).1, hdivided, hrun',
      hdivided.insertion_enlarges.2 _ _ hrun', hwalk, hwalk', hwalk''⟩

end Editor

end FormulaEditor
