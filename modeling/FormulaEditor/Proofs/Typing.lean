import FormulaEditor.Proofs.Tree.Deletion
import FormulaEditor.Proofs.Tree.Whole

/-!
# Typing and deleting at a cursor which has a place

If the cursor is a symbol in an expression of a well-formed tree, every stroke can be put in
(`Editor.exists_insert`), so can every formula which can be typeset (`Editor.exists_insertText`), and
the symbol can be deleted unless it is a start (`Editor.exists_backspace`). The tree need not be
whole for that, but if it is, it is so afterwards.
-/

set_option autoImplicit false

namespace FormulaEditor

open Edit

namespace Tree

variable {tree : Tree}

/-- Typing can go on after every symbol, at a symbol. -/
theorem WellFormed.exists_continuation (h : tree.WellFormed) {id : NodeId} {symbol : Symbol}
    (hid : tree.symbol id = .ok symbol) (collected : Bool) :
    ∃ next, Editor.continuation id symbol collected tree = .ok next ∧ tree.IsSymbol next := by
  obtain ⟨parent, hnode⟩ := symbol_eq_ok_iff.mp hid
  have hslot : ∀ slot ∈ symbol.slots, ∃ next, tree.first slot = .ok next ∧ tree.IsSymbol next := by
    intro slot hslot
    obtain ⟨items, hslotNode⟩ := (h.slots hnode).2 slot hslot
    obtain ⟨start, hfirst, hstart⟩ := h.exists_first hslotNode
    exact ⟨start, hfirst, isSymbol_of_node? hstart⟩
  cases symbol with
  | fraction numerator denominator =>
    refine hslot _ ?_
    cases collected <;> simp [Symbol.slots]
  | superscript slot => exact hslot slot List.mem_cons_self
  | radical slot => exact hslot slot List.mem_cons_self
  | _ => exact ⟨id, rfl, _, hid⟩

/-- A formula which can be typeset can be put in after every symbol which has a place. -/
theorem WellFormed.exists_typeset (h : tree.WellFormed) {anchor expression : NodeId} {index : Nat}
    (hposition : tree.position anchor = .ok (expression, index)) {formula : Formula}
    (hformula : formula.typesettable = .ok ()) :
    ∃ last grown, (typeset anchor formula).run tree = .ok last grown ∧ grown.IsSymbol last := by
  obtain ⟨symbol, hanchor⟩ := h.node?_of_position hposition
  obtain ⟨owner, front, back, hexpression, -⟩ := h.exists_split hanchor
  obtain ⟨run, grown, hrun, hplaced⟩ := h.run_typeset hexpression hformula
  have hmem : run.getLastD anchor ∈ front ++ anchor :: (run ++ back) := by
    cases hlast : run.getLast? with
    | none => simp [List.getLastD_eq_getLast?, hlast]
    | some last => simp [List.getLastD_eq_getLast?, hlast, List.mem_of_getLast? hlast]
  obtain ⟨s, hs⟩ := hplaced.wellFormed.node?_of_mem hplaced.listing hmem
  exact ⟨_, grown, hrun, isSymbol_of_node? hs⟩

/-- A symbol of an expression which is no start can be deleted, and what is not inside it stays. -/
theorem WellFormed.exists_delete (h : tree.WellFormed) {id expression : NodeId} {symbol : Symbol}
    (hid : tree.node? id = some ⟨some expression, .symbol symbol⟩) (hsymbol : symbol ≠ .start) :
    ∃ pruned, (Tree.delete id).run tree = .ok () pruned ∧
      ∀ y, tree.IsSymbol y → ¬ tree.Inside y id → pruned.IsSymbol y := by
  have hrun := h.run_delete id
  rw [h.deletion_eq hid hsymbol] at hrun
  refine ⟨_, hrun, ?_⟩
  rintro y ⟨s, hs⟩ hout
  obtain ⟨parent, hy⟩ := symbol_eq_ok_iff.mp hs
  obtain ⟨owner, items, hexpression, -⟩ := h.listed hid
  have hne : y ≠ expression := by
    rintro rfl
    rw [hexpression] at hy
    cases hy
  have hkept : y ∉ tree.inner id := fun hmem =>
    hout ((h.mem_inner_iff (isLive_iff.mpr ⟨_, hid⟩)).mp hmem).2
  exact isSymbol_of_node? (((h.cut hid).rest y hkept hne).trans hy)

end Tree

namespace Editor

variable {editor : Editor} {expression : NodeId} {index : Nat}

/-- An edit which succeeds on the tree of an editor succeeds in the editor, with the same answer. -/
theorem run_onTree_of_ok {α : Type} {edit : Edit Tree α} {answer : α} {grown : Tree}
    (h : edit.run editor.tree = .ok answer grown) :
    (onTree edit).run editor = .ok answer { editor with tree := grown } := by
  rw [run_onTree, h]

/-- How a stroke is put in: the new symbol is added behind the cursor, a fraction may be filled, and
the cursor goes on. -/
theorem run_insert_of (hposition : editor.tree.position editor.cursor = .ok (expression, index))
    {stroke : Stroke} {id next : NodeId} {symbol : Symbol} {collected : Bool} {made grown : Tree}
    (hadd : (Tree.add editor.cursor stroke).run editor.tree = .ok id made)
    (hsymbol : made.symbol id = .ok symbol)
    (hcollect : (if stroke = .fraction ∧ editor.settings.fillsNumerator
      then onTree (Tree.fillNumerator id) else pure false : Edit Editor Bool).run
        { editor with tree := made } = .ok collected { editor with tree := grown })
    (hnext : continuation id symbol collected grown = .ok next) :
    (insert stroke).run editor = .ok id ⟨grown, next, editor.settings⟩ := by
  refine run_bind_eq_ok.mpr ⟨editor, editor, rfl, ?_⟩
  refine run_bind_eq_ok.mpr ⟨editor, editor, rfl, ?_⟩
  refine run_bind_eq_ok.mpr ⟨_, editor, by rw [run_look, hposition], ?_⟩
  refine run_bind_eq_ok.mpr ⟨_, _, run_onTree_of_ok hadd, ?_⟩
  refine run_bind_eq_ok.mpr ⟨symbol, _, by rw [run_look, hsymbol], ?_⟩
  have hfinish : (do
      moveTo (← look fun editor' => continuation id symbol collected editor'.tree)
      return id : Edit Editor NodeId).run { editor with tree := grown } =
        .ok id ⟨grown, next, editor.settings⟩ :=
    run_bind_eq_ok.mpr ⟨next, _, by rw [run_look, hnext], rfl⟩
  by_cases hfills : stroke = .fraction ∧ editor.settings.fillsNumerator
  · rw [if_pos hfills] at hcollect ⊢
    exact run_bind_eq_ok.mpr ⟨collected, _, hcollect, hfinish⟩
  · rw [if_neg hfills] at hcollect ⊢
    exact run_bind_eq_ok.mpr ⟨collected, _, hcollect, hfinish⟩

/-- How the cursor moves. -/
theorem run_navigate_of {direction : Direction} {id : NodeId}
    (h : editor.tree.navigate editor.cursor direction = .ok id) :
    (navigate direction).run editor = .ok id { editor with cursor := id } :=
  run_bind_eq_ok.mpr ⟨id, editor, by rw [run_look, h], rfl⟩

/-- How the symbol before the cursor is deleted: the cursor goes on to the symbol before that. -/
theorem run_backspace_of {previous : NodeId} {pruned : Tree}
    (hleft : editor.tree.leftNeighbour editor.cursor = .ok (some previous))
    (hdelete : (Tree.delete editor.cursor).run editor.tree = .ok () pruned) :
    backspace.run editor = .ok true ⟨pruned, previous, editor.settings⟩ := by
  refine run_bind_eq_ok.mpr ⟨editor, editor, rfl, ?_⟩
  refine run_bind_eq_ok.mpr ⟨some previous, editor, by rw [run_look, hleft], ?_⟩
  refine run_bind_eq_ok.mpr ⟨(), { editor with cursor := previous }, rfl, ?_⟩
  exact run_bind_eq_ok.mpr ⟨(), _, run_onTree_of_ok hdelete, rfl⟩

/-- If a stroke can be put in, a symbol is added behind the cursor, which has a place, and if it is a
fraction, its numerator may be filled. -/
theorem exists_add_of_run_insert {stroke : Stroke} {id : NodeId} {next : Editor}
    (hrun : (insert stroke).run editor = .ok id next) :
    ∃ place made, editor.tree.position editor.cursor = .ok place ∧
      (Tree.add editor.cursor stroke).run editor.tree = .ok id made ∧
      (next.tree = made ∨ stroke = .fraction ∧
        ∃ collected, (Tree.fillNumerator id).run made = .ok collected next.tree) := by
  obtain ⟨_, _, ⟨⟩, hrun⟩ := run_bind_eq_ok.mp hrun
  obtain ⟨_, _, ⟨⟩, hrun⟩ := run_bind_eq_ok.mp hrun
  obtain ⟨place, hposition, hrun⟩ := run_look_bind_eq_ok.mp hrun
  obtain ⟨_, _, hput, hrun⟩ := run_bind_eq_ok.mp hrun
  obtain ⟨made, hadd, rfl⟩ := run_onTree_eq_ok.mp hput
  obtain ⟨symbol, -, hrun⟩ := run_look_bind_eq_ok.mp hrun
  have hmove : ∀ {question : Editor → Except Error NodeId} {answer : NodeId} {state : Editor},
      (do moveTo (← look question); return answer : Edit Editor NodeId).run state = .ok id next →
        answer = id ∧ next.tree = state.tree := by
    intro question answer state hmove
    obtain ⟨_, -, hmove⟩ := run_look_bind_eq_ok.mp hmove
    cases hmove
    exact ⟨rfl, rfl⟩
  dsimp only at hrun
  split at hrun
  case isTrue hfills =>
    obtain ⟨collected, _, hcollect, hrun⟩ := run_bind_eq_ok.mp hrun
    obtain ⟨grown, hfill, rfl⟩ := run_onTree_eq_ok.mp hcollect
    obtain ⟨rfl, htree⟩ := hmove hrun
    exact ⟨place, made, hposition, hadd, .inr ⟨hfills.1, collected, htree ▸ hfill⟩⟩
  case isFalse =>
    obtain ⟨_, _, ⟨⟩, hrun⟩ := run_bind_eq_ok.mp hrun
    obtain ⟨rfl, htree⟩ := hmove hrun
    exact ⟨place, made, hposition, hadd, .inl htree⟩

/-- If a text can be put in, a formula is typeset at the cursor. -/
theorem exists_typeset_of_run_insertText {text : String} {next : Editor}
    (hrun : (insertText text).run editor = .ok () next) :
    ∃ formula last, (Tree.typeset editor.cursor formula).run editor.tree = .ok last next.tree := by
  obtain ⟨formula, -, hrun⟩ := run_ofExcept_bind_eq_ok.mp hrun
  obtain ⟨_, _, ⟨⟩, hrun⟩ := run_bind_eq_ok.mp hrun
  obtain ⟨last, _, hput, hrun⟩ := run_bind_eq_ok.mp hrun
  obtain ⟨grown, htypeset, rfl⟩ := run_onTree_eq_ok.mp hput
  cases hrun
  exact ⟨formula, last, htypeset⟩

/-- Every stroke can be put in at a cursor which has a place. Afterwards there is a new symbol, with
the next name, and the cursor is on a symbol. -/
theorem exists_insert (h : editor.tree.WellFormed)
    (hposition : editor.tree.position editor.cursor = .ok (expression, index)) (stroke : Stroke) :
    ∃ next, (insert stroke).run editor = .ok editor.tree.nextId next ∧
      next.tree.IsSymbol editor.tree.nextId ∧ next.tree.IsSymbol next.cursor := by
  obtain ⟨symbol, hcursor⟩ := h.node?_of_position hposition
  obtain ⟨owner, front, back, hexpression, -⟩ := h.exists_split hcursor
  obtain ⟨made, hadd, hmade, -, -, hid, -⟩ := h.run_add hexpression stroke
  have hsymbol := Tree.symbol_of_node? hid
  -- whether symbols are collected or not, the new symbol is still there afterwards
  obtain ⟨collected, grown, hcollect, hgrown, hkept⟩ : ∃ collected grown,
      (if stroke = .fraction ∧ editor.settings.fillsNumerator
        then onTree (Tree.fillNumerator editor.tree.nextId) else pure false :
          Edit Editor Bool).run { editor with tree := made } =
        .ok collected { editor with tree := grown } ∧ grown.WellFormed ∧
      grown.symbol editor.tree.nextId = .ok (stroke.symbol editor.tree.nextId) := by
    by_cases hfills : stroke = .fraction ∧ editor.settings.fillsNumerator
    · rw [if_pos hfills]
      rw [hfills.1] at hid hsymbol ⊢
      obtain ⟨run, start, hfound, -⟩ := hmade.exists_numeratorRun hid
      rcases hmade.run_fillNumerator editor.tree.nextId with
        ⟨e, -, hnone⟩ | ⟨collected, grown, hfill, hgrown, hkept⟩
      · rw [hfound] at hnone
        cases hnone
      · exact ⟨collected, grown, run_onTree_of_ok hfill, hgrown, hkept _ _ hsymbol⟩
    · rw [if_neg hfills]
      exact ⟨false, made, rfl, hmade, hsymbol⟩
  obtain ⟨next, hnext, hcursor'⟩ := hgrown.exists_continuation hkept collected
  exact ⟨⟨grown, next, editor.settings⟩, run_insert_of hposition hadd hsymbol hcollect hnext,
    ⟨_, hkept⟩, hcursor'⟩

/-- A formula which can be typeset can be put in at a cursor which has a place, and the cursor is on
a symbol afterwards. -/
theorem exists_insertText (h : editor.tree.WellFormed)
    (hposition : editor.tree.position editor.cursor = .ok (expression, index)) {text : String}
    {formula : Formula} (htext : Formula.ofText text = .ok formula)
    (hformula : formula.typesettable = .ok ()) :
    ∃ next, (insertText text).run editor = .ok () next ∧ next.tree.IsSymbol next.cursor := by
  obtain ⟨last, grown, htypeset, hlast⟩ := h.exists_typeset hposition hformula
  refine ⟨⟨grown, last, editor.settings⟩, ?_, hlast⟩
  refine run_bind_eq_ok.mpr ⟨formula, editor, by rw [run_ofExcept, htext], ?_⟩
  refine run_bind_eq_ok.mpr ⟨editor, editor, rfl, ?_⟩
  exact run_bind_eq_ok.mpr ⟨last, _, run_onTree_of_ok htypeset, rfl⟩

/-- With the cursor on a start nothing is deleted, and with the cursor on any other symbol of an
expression this one is. The cursor is on a symbol afterwards. -/
theorem exists_backspace (h : editor.tree.WellFormed) {symbol : Symbol}
    (hcursor : editor.tree.node? editor.cursor = some ⟨some expression, .symbol symbol⟩) :
    ∃ deleted next, backspace.run editor = .ok deleted next ∧
      (deleted = false ↔ symbol = .start) ∧ next.tree.IsSymbol next.cursor := by
  obtain ⟨answer, hleft, hstart, hprevious⟩ := h.exists_leftNeighbour hcursor
  cases answer with
  | none =>
    refine ⟨false, editor, ?_, by simpa using hstart, Tree.isSymbol_of_node? hcursor⟩
    have hask : (look (·.tree.leftNeighbour editor.cursor)).run editor = .ok none editor := by
      rw [run_look, hleft]
    exact run_bind_eq_ok.mpr ⟨editor, editor, rfl, run_bind_eq_ok.mpr ⟨none, editor, hask, rfl⟩⟩
  | some previous =>
    have hsymbol : symbol ≠ .start := fun hs => by simpa using hstart.mpr hs
    obtain ⟨hne, s, hs⟩ := hprevious previous rfl
    obtain ⟨pruned, hdelete, hkept⟩ := h.exists_delete hcursor hsymbol
    refine ⟨true, _, run_backspace_of hleft hdelete, by simpa using hsymbol,
      hkept previous (Tree.isSymbol_of_node? hs) fun hinside => ?_⟩
    -- the left neighbour stands in the same expression, which is not inside the symbol
    have hground := h.grounded (Tree.isLive_iff.mpr ⟨_, hcursor⟩)
    exact hground.acyclic (Tree.parent?_of_node? hcursor)
      (hinside.above hne (Tree.parent?_of_node? hs))

/-! ## The tree stays whole -/

/-- Typing a stroke restores that the tree is whole. -/
theorem restores_whole_insert (stroke : Stroke) :
    Restores (fun editor : Editor => editor.tree.Whole) (insert stroke) := by
  intro editor id next hwhole hrun
  obtain ⟨_, made, -, hadd, rfl | ⟨-, collected, hfill⟩⟩ := exists_add_of_run_insert hrun
  · exact Tree.restores_whole_add _ _ _ _ _ hwhole hadd
  · have hmade := Tree.restores_whole_add _ _ _ _ _ hwhole hadd
    exact (Tree.keeps_whole_fillNumerator id).of_run hmade hfill

/-- Backspace restores that the tree is whole. -/
theorem restores_whole_backspace :
    Restores (fun editor : Editor => editor.tree.Whole) backspace := by
  refine .of_keeps (Keeps.get.bind fun before => (Keeps.look _).bind fun answer => ?_)
  cases answer with
  | none => exact Keeps.pure false
  | some previous =>
    exact (Tree.Lasting.keeps_moveTo previous).bind fun _ =>
      (Tree.Lasting.keeps_onTree (Tree.keeps_whole_delete before.cursor)).bind fun _ =>
        Keeps.pure true

/-- Putting in a text restores that the tree is whole. -/
theorem restores_whole_insertText (text : String) :
    Restores (fun editor : Editor => editor.tree.Whole) (insertText text) := by
  intro editor _ next hwhole hrun
  obtain ⟨formula, last, htypeset⟩ := exists_typeset_of_run_insertText hrun
  exact Tree.restores_whole_typeset _ _ _ _ _ hwhole htypeset

end Editor

end FormulaEditor
