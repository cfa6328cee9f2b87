import FormulaEditor.Proofs.Sealed
import FormulaEditor.Proofs.Tree.Enlarging
import FormulaEditor.Proofs.Tree.Sideways

/-!
# Taking back what has been typed

A symbol which has just been added to a tree is alone in holding what is new
(`Tree.WellFormed.mem_inner_added_iff`), so deleting it brings every node back
(`Tree.WellFormed.delete_added`). In an editor the cursor has to be behind the symbol for that, and
if the symbol has slots, it is in the first one after the insertion. Since that has nothing but its
start in it, one move to the right leads out of it, and backspace takes the insertion back
(`Editor.Sealed.insert_undone`). Only where a new fraction has taken symbols into its numerator
(`Editor.Collects`, `Tree.WellFormed.run_fillNumerator_added`) they would be deleted with it.
-/

set_option autoImplicit false

namespace FormulaEditor

open Edit

namespace Tree

/-- The characters which stand for the symbols of an expression up to a given one, without the start
of the expression. -/
def precisUpTo (tree : Tree) (id : NodeId) : Except Error (List Char) := do
  let (expression, index) ← tree.position id
  (((← tree.items expression).take (index + 1)).drop 1).mapM fun item =>
    return (← tree.symbol item).precis

variable {tree made : Tree} {id y anchor expression : NodeId} {owner : Option NodeId}
  {stroke : Stroke} {front back : List NodeId}

namespace WellFormed

/-- Inside a symbol which has been added are just the nodes which have been made with it. -/
theorem mem_inner_added_iff (h : tree.WellFormed)
    (hrun : (add anchor stroke).run tree = .ok id made) :
    y ∈ made.inner id ↔ made.isLive y = true ∧ tree.nextId ≤ y := by
  obtain ⟨hmade, hgrows⟩ := h.growsInto_of_run_add hrun
  obtain ⟨rfl, expression, hdest, rfl⟩ := h.of_run_add hrun
  obtain ⟨hmoved, hparent, -⟩ := (h.pushSymbol stroke).moved_moveAfter hdest
  obtain ⟨kind, hid⟩ := node?_of_parent? hparent
  rw [hmade.mem_inner_iff (isLive_iff.mpr ⟨_, hid⟩), hmoved.inside_iff]
  refine and_congr_right fun hlive => ⟨fun hinside => ?_, fun hnew => ?_⟩
  · by_contra hgiven
    exact h.not_inside_nextId stroke (hgrows.isLive_of_lt hlive (Nat.lt_of_not_le hgiven)) hinside
  · obtain ⟨node, hnode⟩ := isLive_iff.mp (hmoved.isLive_iff.mp hlive)
    obtain hold | ⟨rfl, -⟩ | ⟨slot, hslot, ⟨rfl, rfl⟩ | ⟨rfl, rfl⟩⟩ :=
      (node?_pushSymbol_iff node y).mp hnode
    · exact absurd (lt_nextId_of_node? hold) (Nat.not_lt_of_le hnew)
    · exact Inside.refl _
    · exact .of_parent (parent?_of_node? hnode)
    · exact .child (parent?_of_node? hnode)
        (.of_parent (parent?_of_node? (node?_pushSymbol_slot hslot).1))

/-- A symbol which has just been added can be deleted. Then every node is what it was before, and
the names which have been given to what was added are not used any more. -/
theorem delete_added (h : tree.WellFormed)
    (hexpression : tree.node? expression = some ⟨owner, .expression (front ++ anchor :: back)⟩)
    (hrun : (add anchor stroke).run tree = .ok id made) :
    ∃ after, (Tree.delete id).run made = .ok () after ∧ after.nextId = made.nextId ∧
      ∀ y, after.node? y = tree.node? y := by
  have hinner := fun y => @mem_inner_added_iff _ _ _ y _ _ h hrun
  obtain ⟨hmade, hgrows⟩ := h.growsInto_of_run_add hrun
  obtain ⟨_, hrun', -, hspares, hlisting, hid, -⟩ := h.run_add hexpression stroke
  rw [hrun] at hrun'
  cases hrun'
  have hdelete := hmade.run_delete tree.nextId
  rw [hmade.deletion_eq hid (slots_symbol tree.nextId stroke).2.2] at hdelete
  refine ⟨_, hdelete, by rw [nextId_killAll, nextId_detach], fun y => ?_⟩
  rw [List.append_cons] at hlisting
  have hview := relisting_detach hid hlisting
  rw [node?_killAll]
  by_cases hnew : tree.nextId ≤ y
  · rw [tree.node?_of_nextId_le hnew]
    by_cases hlive : made.isLive y = true
    · rw [if_pos ((hinner y).mpr ⟨hlive, hnew⟩)]
    · rw [← hview.isLive_eq] at hlive
      rw [Option.not_isSome_iff_eq_none.mp hlive, ite_self]
  rw [if_neg fun hmem => hnew ((hinner y).mp hmem).2]
  by_cases hy : y = expression
  · rw [hy, hview.node?_listing, hexpression,
      List.erase_append_right _ (hmade.notMem_of_split hlisting), List.erase_cons_head,
      List.append_assoc]
    rfl
  · have hgiven := Nat.lt_of_not_le hnew
    rw [hview.node?_rest (Nat.ne_of_lt hgiven) hy, hgrows.node?_of_lt hspares hgiven hy]

/-- What stands up to a symbol are the members of its expression up to it, without the start. -/
theorem precisUpTo_eq (h : tree.WellFormed)
    (hexpression : tree.node? expression = some ⟨owner, .expression (front ++ anchor :: back)⟩)
    {start : NodeId} {before : List NodeId} (hfront : front ++ [anchor] = start :: before) :
    tree.precisUpTo anchor = before.mapM fun item => return (← tree.symbol item).precis := by
  have htake : ((front ++ anchor :: back).take (front.length + 1)).drop 1 = before := by
    have hlength : front.length + 1 = (front ++ [anchor]).length := by simp
    rw [List.append_cons, hlength, List.take_left, hfront]
    rfl
  simp only [precisUpTo, h.position_eq hexpression, items_of_node? hexpression, bind, Except.bind,
    htake]

/-- A fraction which has just been added takes something into its numerator just if what stood up to
the cursor ends with something which a numerator takes. Otherwise nothing changes. -/
theorem run_fillNumerator_added (h : tree.WellFormed)
    (hexpression : tree.node? expression = some ⟨owner, .expression (front ++ anchor :: back)⟩)
    (hrun : (add anchor .fraction).run tree = .ok id made) :
    ∃ collected grown, (fillNumerator id).run made = .ok collected grown ∧
      (collected = true ↔ ∃ kept run, tree.precisUpTo anchor = .ok (kept ++ run) ∧
        Numerator.Collects kept run) ∧
      (collected = false → grown = made) := by
  obtain ⟨hmade, hgrows⟩ := h.growsInto_of_run_add hrun
  obtain ⟨_, hrun', -, -, hlisting, hid, hslots⟩ := h.run_add hexpression .fraction
  rw [hrun] at hrun'
  cases hrun'
  obtain ⟨start, before, hfront⟩ := List.exists_cons_of_ne_nil
    (List.append_ne_nil_of_right_ne_nil front (List.cons_ne_nil anchor []))
  have hsymbols : ∀ item ∈ before, item ∈ front ++ anchor :: back := by
    intro item hitem
    rw [List.append_cons, hfront]
    exact List.mem_append_left back (List.mem_cons_of_mem start hitem)
  obtain ⟨precis, hprecis⟩ := h.exists_precis hexpression hsymbols
  have hupTo : tree.precisUpTo anchor = .ok precis :=
    (h.precisUpTo_eq hexpression hfront).trans hprecis
  -- the symbols before the fraction are what they were before it was added
  have hprecis' : before.mapM
      (fun item => return (← made.symbol item).precis : NodeId → Except Error Char) =
        .ok precis := by
    rw [← hprecis]
    refine mapM_congr fun item hitem => ?_
    obtain ⟨symbol, hnode⟩ := h.node?_of_mem hexpression (hsymbols item hitem)
    have hsymbol := symbol_of_node? hnode
    rw [hsymbol, hgrows.symbol hsymbol]
  rw [List.append_cons, hfront, List.cons_append] at hlisting
  obtain ⟨hnumerator, -⟩ := hslots (tree.nextId + 1) List.mem_cons_self
  have hends := Numerator.collects_take_drop_iff (length_of_mapM hprecis)
  simp only [hupTo, Except.ok.injEq, ← hends]
  by_cases hcollects : ∃ kept run, before = kept ++ run ∧
      Numerator.Collects (precis.take kept.length) (precis.drop kept.length)
  · obtain ⟨kept, run, hbefore, htaken⟩ := hcollects
    obtain ⟨grown, hfill, -⟩ :=
      hmade.run_fillNumerator_of_collects hid hlisting hnumerator hprecis' hbefore htaken
    exact ⟨true, grown, hfill, ⟨fun _ => ⟨kept, run, hbefore, htaken⟩, fun _ => rfl⟩,
      fun hfalse => absurd hfalse.symm Bool.false_ne_true⟩
  · have hfill := hmade.run_fillNumerator_of_none hid hlisting hnumerator hprecis'
      fun kept run hbefore htaken => hcollects ⟨kept, run, hbefore, htaken⟩
    exact ⟨false, made, hfill, ⟨fun htrue => absurd htrue Bool.false_ne_true,
      fun h => absurd h hcollects⟩, fun _ => rfl⟩

end WellFormed

end Tree

namespace Editor

/-- A stroke takes symbols into a numerator: it is a fraction, the editor fills numerators, and what
stands up to the cursor ends with something which a numerator takes. -/
def Collects (editor : Editor) (stroke : Stroke) : Prop :=
  stroke = .fraction ∧ editor.settings.fillsNumerator = true ∧
    ∃ kept run, editor.tree.precisUpTo editor.cursor = .ok (kept ++ run) ∧
      Numerator.Collects kept run

/-- Where nothing has been collected, typing goes on in the first slot of a symbol, or after it. -/
theorem continuation_false (id : NodeId) (symbol : Symbol) (tree : Tree) :
    continuation id symbol false tree = match symbol.slots with
      | slot :: _ => tree.first slot
      | [] => .ok id := by
  cases symbol <;> rfl

variable {editor : Editor} {expression : NodeId} {index : Nat} {stroke : Stroke}

/-- A stroke which collects nothing is added behind the cursor, and then the cursor gets behind the
new symbol, with a move to the right if the symbol has slots. -/
theorem exists_insert_of_not_collects (h : editor.tree.WellFormed)
    {owner : Option NodeId} {front back : List NodeId}
    (hexpression : editor.tree.node? expression =
      some ⟨owner, .expression (front ++ editor.cursor :: back)⟩)
    (hnone : ¬editor.Collects stroke) :
    ∃ made inserted, (Tree.add editor.cursor stroke).run editor.tree =
        .ok editor.tree.nextId made ∧
      (insert stroke).run editor = .ok editor.tree.nextId inserted ∧ inserted.tree = made ∧
      if (stroke.symbol editor.tree.nextId).isComposite then
        (navigate .right).run inserted =
          .ok editor.tree.nextId ⟨made, editor.tree.nextId, editor.settings⟩
      else inserted = ⟨made, editor.tree.nextId, editor.settings⟩ := by
  obtain ⟨made, hadd, hmade, -, -, hid, hslots⟩ := h.run_add hexpression stroke
  have hcollect : (if stroke = .fraction ∧ editor.settings.fillsNumerator
      then onTree (Tree.fillNumerator editor.tree.nextId) else pure false :
        Edit Editor Bool).run { editor with tree := made } =
          .ok false { editor with tree := made } := by
    split
    case isTrue hfills =>
      obtain ⟨rfl, hfills⟩ := hfills
      obtain ⟨collected, grown, hfill, hiff, hsame⟩ := h.run_fillNumerator_added hexpression hadd
      have hfalse : collected = false :=
        Bool.eq_false_iff.mpr fun htrue => hnone ⟨rfl, hfills, hiff.mp htrue⟩
      subst hfalse
      rw [hsame rfl] at hfill
      exact run_onTree_of_ok hfill
    case isFalse => rfl
  have hinsert := fun next => @run_insert_of editor expression _ (h.position_eq hexpression)
    stroke _ next _ _ _ _ hadd (Tree.symbol_of_node? hid) hcollect
  rw [continuation_false] at hinsert
  cases hlist : (stroke.symbol editor.tree.nextId).slots with
  | nil =>
    rw [Symbol.isComposite, hlist]
    rw [hlist] at hinsert
    exact ⟨made, _, hadd, hinsert _ rfl, rfl, rfl⟩
  | cons slot slots =>
    rw [Symbol.isComposite, hlist]
    rw [hlist] at hinsert
    obtain ⟨hslot, -⟩ := hslots slot (hlist ▸ List.mem_cons_self)
    have hright := @Tree.StepsRight.out made (slot + 1) slot editor.tree.nextId [] hslot
    exact ⟨made, _, hadd, hinsert _ (Tree.first_of_list hslot), rfl,
      run_navigate_of (hright.navigate_eq hmade)⟩

/-- Backspace takes back what has been typed. As long as only its own calls change an editor, every
stroke which does not collect a numerator can be put in, the cursor gets behind the new symbol, with
a move to the right if the symbol has slots, and then backspace deletes it. Afterwards the cursor is
where it was, every node is what it was, and all names which have been given since denote
nothing. -/
theorem Sealed.insert_undone (h : editor.Sealed) (hnone : ¬editor.Collects stroke) :
    ∃ id inserted behind after, (insert stroke).run editor = .ok id inserted ∧
      inserted.tree.symbol id = .ok (stroke.symbol id) ∧
      (if (stroke.symbol id).isComposite then (navigate .right).run inserted = .ok id behind
        else inserted = behind) ∧
      backspace.run behind = .ok true after ∧
      after.cursor = editor.cursor ∧ after.settings = editor.settings ∧
      (∀ y, after.tree.node? y = editor.tree.node? y) ∧
      after.tree.nextId = inserted.tree.nextId ∧
      ∀ y, editor.tree.nextId ≤ y → after.tree.isLive y = false := by
  have hsound := h.sound
  have hwell := hsound.whole.wellFormed
  obtain ⟨expression, symbol, -, hcursor, -⟩ := hsound.exists_place
  obtain ⟨owner, front, back, hexpression, -⟩ := hwell.exists_split hcursor
  obtain ⟨made, inserted, hadd, hinsert, rfl, hbehind⟩ :=
    exists_insert_of_not_collects hwell hexpression hnone
  obtain ⟨_, hadd', hmade, -, hlisting, hid, -⟩ := hwell.run_add hexpression stroke
  rw [hadd] at hadd'
  cases hadd'
  obtain ⟨after, hdelete, hnextId, hnodes⟩ := hwell.delete_added hexpression hadd
  rw [List.append_cons] at hlisting
  have hleft := hmade.leftNeighbour_eq hlisting
  rw [List.getLast?_concat] at hleft
  refine ⟨_, inserted, _, _, hinsert, Tree.symbol_of_node? hid, hbehind,
    run_backspace_of hleft hdelete, rfl, rfl, hnodes, hnextId, fun y hy => ?_⟩
  rw [Tree.isLive, hnodes, editor.tree.node?_of_nextId_le hy]
  rfl

set_option maxRecDepth 10000 in
/-- A fraction which is typed behind the `+` of `1+2` in a square root has nothing to collect, and
is taken back from its empty numerator. -/
theorem insert_undone_in_radical :
    let editor := session [.own (.insertName "sqrt"), .own (.insertChar '1'),
      .own (.insertChar '+'), .own (.insertChar '2'), .own (.navigate .left)] (new {})
    editor.Sealed ∧ ¬editor.Collects .fraction ∧ editor.cursor = 6 ∧
      ∃ inserted behind after, (insert .fraction).run editor = .ok 8 inserted ∧
        (navigate .right).run inserted = .ok 8 behind ∧ backspace.run behind = .ok true after ∧
        after.cursor = 6 ∧ ∀ y, after.tree.node? y = editor.tree.node? y := by
  intro editor
  have hsealed : editor.Sealed := .call (.navigate .left) (.call (.insertChar '2')
    (.call (.insertChar '+') (.call (.insertChar '1') (.call (.insertName "sqrt") (.new {})))))
  have hcursor : editor.cursor = 6 := by decide +kernel
  have hprecis : editor.tree.precisUpTo editor.cursor = .ok ['1', '+'] := by decide +kernel
  have hnextId : editor.tree.nextId = 8 := by decide +kernel
  clear_value editor
  have hnone : ¬editor.Collects .fraction := by
    rintro ⟨-, -, kept, run, hsplit, hcollects⟩
    rw [hprecis, Except.ok.injEq] at hsplit
    have hlength := hcollects.runLength_eq
    rw [← hsplit, show Numerator.runLength ['1', '+'].reverse = 0 by decide +kernel] at hlength
    exact hcollects.ne_nil (List.length_eq_zero_iff.mp hlength.symm)
  obtain ⟨id, inserted, behind, after, hinsert, -, hbehind, hbackspace, hback, -, hnodes, -⟩ :=
    hsealed.insert_undone hnone
  obtain ⟨rfl, -⟩ := insert_eq_ok hsealed.sound.whole.wellFormed hinsert
  rw [hnextId] at hinsert hbehind
  exact ⟨hsealed, hnone, hcursor, inserted, behind, after, hinsert, hbehind, hbackspace,
    hback.trans hcursor, hnodes⟩

end Editor

end FormulaEditor
