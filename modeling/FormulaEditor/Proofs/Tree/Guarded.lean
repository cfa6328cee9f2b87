import FormulaEditor.Proofs.Guarded
import FormulaEditor.Proofs.Tree.Visiting

/-!
# Guarded changes of a tree

The primitive changes of a tree, with every access checked: a name is looked up in the table of
nodes before something is kept under it, and a symbol is put into a list, or taken out of it, at a
position which must exist. In well-formed trees the checks succeed, so that making, moving and
deleting symbols goes on as without them (`Tree.run_guardedCreate`,
`Tree.WellFormed.follows_guardedInsertAfter`, `Tree.WellFormed.follows_guardedDelete`).
-/

set_option autoImplicit false

namespace FormulaEditor.Tree

open Guarded (Follows)

/-! ## The changes -/

/-- Changes what is kept under a name, which must have been given. -/
def guardedModifyCell (id : NodeId) (change : Cell → Cell) : Guarded Tree Unit := do
  if id < (← get).nextId then modify (·.modifyCell id change) else throw .outOfRange

/-- Makes a node under the next name. -/
def guardedAllocate (node : Node) : Guarded Tree NodeId := do
  let id := (← get).nextId
  modify (·.push node)
  return id

/-- Makes an expression and its start, which is put into the expression when it is there. -/
def guardedPushExpression (owner : Option NodeId) : Guarded Tree NodeId := do
  let id ← guardedAllocate ⟨owner, .expression []⟩
  let start ← guardedAllocate ⟨some id, .symbol .start⟩
  guardedModifyCell id fun cell => { cell with node := cell.node.map (.mapItems (· ++ [start])) }
  return id

/-- Makes the slots of a symbol, and answers the symbol which has them. -/
def guardedSlots (id : NodeId) : Stroke → Guarded Tree Symbol
  | .atom c => return .atom c
  | .bracket side => return .bracket side
  | .bar => return .bar
  | .fraction => do
    let numerator ← guardedPushExpression (some id)
    return .fraction numerator (← guardedPushExpression (some id))
  | .superscript => return .superscript (← guardedPushExpression (some id))
  | .radical => return .radical (← guardedPushExpression (some id))

/-- Creates a symbol which stands nowhere. Its name is reserved before its slots are made, which
point back at it. -/
def guardedCreate (stroke : Stroke) : Guarded Tree NodeId := do
  let id ← guardedAllocate ⟨none, .symbol .start⟩
  let symbol ← guardedSlots id stroke
  guardedModifyCell id fun cell => { cell with node := some ⟨none, .symbol symbol⟩ }
  return id

/-- An expression with another list of symbols, among which one is given another parent. -/
def relist (tree : Tree) (expression : NodeId) (items : List NodeId) (id : NodeId)
    (parent : Option NodeId) : Tree :=
  ((tree.update expression (.mapItems fun _ => items)).update id (.withParent parent)).mark
    expression

/-- Takes a symbol out of the expression in which it stands, at its position there. -/
def guardedTakeOut (id : NodeId) : Guarded Tree Unit := do
  let (expression, index) ← Guarded.look fun tree => Checked.answer (tree.position id)
  let items ← Guarded.look fun tree => Checked.answer (tree.items expression)
  let items ← Guarded.check (Checked.remove items index)
  modify (·.relist expression items id none)

/-- Takes a symbol out of the expression in which it stands, if it stands in one. -/
def guardedRelease (id : NodeId) : Guarded Tree Unit := do
  if (← Guarded.look fun tree => Checked.answer (tree.parent id)).isSome then guardedTakeOut id

/-- Puts a symbol into an expression, at the position after another one. -/
def guardedInsertAfter (anchor id : NodeId) : Guarded Tree Unit := do
  let expression ← Guarded.look fun tree => Checked.answer (tree.destination anchor id)
  guardedRelease id
  let (_, index) ← Guarded.look fun tree => Checked.answer (tree.position anchor)
  let items ← Guarded.look fun tree => Checked.answer (tree.items expression)
  let items ← Guarded.check (Checked.insert items (index + 1) id)
  modify (·.relist expression items id (some expression))

/-- Creates a symbol directly after another one. -/
def guardedAdd (anchor : NodeId) (stroke : Stroke) : Guarded Tree NodeId := do
  let id ← guardedCreate stroke
  guardedInsertAfter anchor id
  return id

/-- Removes a node from the table of nodes. -/
def guardedKill (id : NodeId) : Guarded Tree Unit :=
  guardedModifyCell id ({ · with node := none })

/-- Deletes a symbol with everything inside it, which is found by visiting it with a stack. -/
def guardedDelete (id : NodeId) : Guarded Tree Unit := do
  Guarded.look fun tree => Checked.answer (tree.checkMovable id)
  guardedTakeOut id
  let dead ← Guarded.look fun tree => tree.visit id
  dead.forM guardedKill

variable {tree : Tree} {id anchor expression : NodeId} {change : Cell → Cell}

/-! ## Creating -/

/-- What is kept under a name which has been given can be changed. -/
theorem run_guardedModifyCell (h : id < tree.nextId) :
    (guardedModifyCell id change).run tree = .ok () (tree.modifyCell id change) := by
  show (if id < tree.nextId then modify (·.modifyCell id change) else throw .outOfRange :
    Guarded Tree Unit).run tree = _
  rw [if_pos h]
  rfl

/-- Trees in which the same is kept under each name are the same. -/
theorem ext_getElem? {other : Tree} (h : ∀ i : Nat, tree.cells[i]? = other.cells[i]?) :
    tree = other :=
  congrArg Tree.mk (Array.ext_getElem? h)

/-- What is kept under the latest name can be changed before or after it is kept. -/
theorem modifyCell_push_self (node : Node) :
    (tree.push node).modifyCell tree.nextId change =
      ⟨tree.cells.push (change ⟨some node, false⟩)⟩ := by
  refine ext_getElem? fun i => ?_
  simp only [push, modifyCell, nextId, Array.getElem?_modify, Array.getElem?_push]
  grind

/-- What is kept under a name can be changed before or after other names are given. -/
theorem modifyCell_push (h : id < tree.nextId) (node : Node) :
    (tree.push node).modifyCell id change = (tree.modifyCell id change).push node := by
  have hne : id ≠ tree.cells.size := Nat.ne_of_lt h
  refine ext_getElem? fun i => ?_
  simp only [push, modifyCell, Array.getElem?_modify, Array.getElem?_push, Array.size_modify]
  grind

/-- An expression and its start take two names. -/
theorem nextId_pushExpression (owner : Option NodeId) :
    (tree.pushExpression owner).nextId = tree.nextId + 2 := by
  rw [pushExpression, nextId_push, nextId_push]

/-- What is kept under a name can be changed before or after an expression is made. -/
theorem modifyCell_pushExpression (h : id < tree.nextId) (owner : Option NodeId) :
    (tree.pushExpression owner).modifyCell id change =
      (tree.modifyCell id change).pushExpression owner := by
  have hgrown : id < (tree.push ⟨owner, .expression [tree.nextId + 1]⟩).nextId := by
    rw [nextId_push]
    exact Nat.lt_succ_of_lt h
  rw [pushExpression, modifyCell_push hgrown, modifyCell_push h, pushExpression, nextId_modifyCell]

/-- What is kept under a name can be changed before or after slots are made. -/
theorem modifyCell_pushSlots (h : id < tree.nextId) (owner : Option NodeId)
    (slots : List NodeId) :
    (slots.foldl (fun grown _ => grown.pushExpression owner) tree).modifyCell id change =
      slots.foldl (fun grown _ => grown.pushExpression owner) (tree.modifyCell id change) := by
  induction slots generalizing tree with
  | nil => rfl
  | cons slot slots ih =>
    have hgrown : id < (tree.pushExpression owner).nextId := by
      rw [nextId_pushExpression]
      exact Nat.lt_add_right 2 h
    rw [List.foldl_cons, List.foldl_cons, ih hgrown, modifyCell_pushExpression h]

/-- Making slots takes no names back. -/
theorem le_nextId_pushSlots (owner : Option NodeId) (slots : List NodeId) :
    tree.nextId ≤ (slots.foldl (fun grown _ => grown.pushExpression owner) tree).nextId := by
  induction slots generalizing tree with
  | nil => exact Nat.le_refl _
  | cons slot slots ih =>
    have hfirst : tree.nextId ≤ (tree.pushExpression owner).nextId := by
      rw [nextId_pushExpression]
      exact Nat.le_add_right _ 2
    exact Nat.le_trans hfirst ih

/-- An expression is made with every access checked as without checks. -/
theorem run_guardedPushExpression (owner : Option NodeId) :
    (guardedPushExpression owner).run tree = .ok tree.nextId (tree.pushExpression owner) := by
  have hlt : tree.nextId < (tree.push ⟨owner, .expression []⟩).nextId := by
    rw [nextId_push]
    exact Nat.lt_succ_self _
  have hlt' : tree.nextId < ((tree.push ⟨owner, .expression []⟩).push
      ⟨some tree.nextId, .symbol .start⟩).nextId := by
    rw [nextId_push]
    exact Nat.lt_succ_of_lt hlt
  have hstart : (tree.push ⟨owner, .expression []⟩).nextId = tree.nextId + 1 := nextId_push _ _
  rw [guardedPushExpression, EStateM.run_bind]
  show ((guardedAllocate _ >>= _).run (tree.push ⟨owner, .expression []⟩)) = _
  rw [EStateM.run_bind]
  show ((guardedModifyCell tree.nextId _ >>= _).run ((tree.push ⟨owner, .expression []⟩).push
    ⟨some tree.nextId, .symbol .start⟩)) = _
  rw [EStateM.run_bind, run_guardedModifyCell hlt', modifyCell_push hlt, modifyCell_push_self,
    hstart]
  rfl

/-- The slots of a symbol are made one after another, directly behind the symbol. -/
theorem run_guardedSlots (h : tree.nextId = id + 1) (stroke : Stroke) :
    (guardedSlots id stroke).run tree = .ok (stroke.symbol id)
      ((stroke.symbol id).slots.foldl (fun grown _ => grown.pushExpression (some id)) tree) := by
  cases stroke with
  | atom _ | bracket _ | bar => rfl
  | fraction =>
    rw [guardedSlots, EStateM.run_bind, run_guardedPushExpression]
    show ((guardedPushExpression (some id) >>= _).run (tree.pushExpression (some id))) = _
    rw [EStateM.run_bind, run_guardedPushExpression, nextId_pushExpression, h]
    rfl
  | superscript =>
    rw [guardedSlots, EStateM.run_bind, run_guardedPushExpression, h]
    rfl
  | radical =>
    rw [guardedSlots, EStateM.run_bind, run_guardedPushExpression, h]
    rfl

/-- A symbol can also be made by reserving its name before the ones of its slots. -/
theorem run_guardedCreate (stroke : Stroke) :
    (guardedCreate stroke).run tree = .ok tree.nextId (tree.pushSymbol stroke) := by
  have hlt : tree.nextId < (tree.push ⟨none, .symbol .start⟩).nextId := by
    rw [nextId_push]
    exact Nat.lt_succ_self _
  rw [guardedCreate, EStateM.run_bind]
  show ((guardedSlots tree.nextId stroke >>= _).run (tree.push ⟨none, .symbol .start⟩)) = _
  rw [EStateM.run_bind, run_guardedSlots (nextId_push _ _)]
  show ((guardedModifyCell tree.nextId _ >>= _).run _) = _
  rw [EStateM.run_bind, run_guardedModifyCell (hlt.trans_le (le_nextId_pushSlots _ _)),
    modifyCell_pushSlots hlt, modifyCell_push_self]
  rfl

/-- Creating a symbol with every access checked follows creating it. -/
theorem follows_guardedCreate (stroke : Stroke) (tree : Tree) :
    Follows (guardedCreate stroke) (create stroke) tree :=
  run_guardedCreate stroke

/-! ## Moving -/

/-- A symbol is removed from a list at the position where it is found. -/
theorem remove_of_idxOf? {items : List NodeId} {index : Nat} (h : items.idxOf? id = some index) :
    Checked.remove items index = .ok (items.erase id) := by
  obtain ⟨hlt, -, -⟩ := List.idxOf?_eq_some_iff.mp h
  rw [Checked.remove, if_pos hlt, List.erase_eq_eraseIdx, h]

/-- What is put in at the next position stands directly after the item at a position. -/
theorem insert_of_idxOf? {items : List NodeId} {index : Nat}
    (h : items.idxOf? anchor = some index) :
    Checked.insert items (index + 1) id = .ok (spliceAfter anchor id items) := by
  obtain ⟨hlt, -, -⟩ := List.idxOf?_eq_some_iff.mp h
  rw [Checked.insert, if_pos (Nat.succ_le_of_lt hlt)]
  congr 1
  clear hlt
  induction items generalizing index with
  | nil => cases h
  | cons item items ih =>
    rw [List.idxOf?_cons] at h
    by_cases hitem : item = anchor
    · rw [if_pos (beq_iff_eq.mpr hitem)] at h
      cases h
      rw [spliceAfter, if_pos hitem]
      rfl
    · rw [if_neg (mt beq_iff_eq.mp hitem)] at h
      obtain ⟨index, hindex, rfl⟩ := Option.map_eq_some_iff.mp h
      rw [spliceAfter, if_neg hitem, List.insertIdx_succ_cons, ih hindex]

/-- Changes which agree on a node are the same change of a tree. -/
theorem update_congr {node : Node} (h : tree.node? id = some node) {change change' : Node → Node}
    (hsame : change node = change' node) : tree.update id change = tree.update id change' := by
  refine ext_getElem? fun i => ?_
  simp only [update, modifyCell, Array.getElem?_modify]
  by_cases hi : id = i
  · subst hi
    obtain ⟨cell, hcell, hnode⟩ := Option.bind_eq_some_iff.mp h
    rw [if_pos rfl, if_pos rfl, hcell, Option.map_some, Option.map_some, hnode, Option.map_some,
      Option.map_some, hsame]
  · rw [if_neg hi, if_neg hi]

/-- An expression with another list, and a symbol with another parent, is what changing both makes.
-/
theorem relist_eq {owner parent : Option NodeId} {items : List NodeId}
    (h : tree.node? expression = some ⟨owner, .expression items⟩)
    (change : List NodeId → List NodeId) :
    tree.relist expression (change items) id parent =
      ((tree.update expression (.mapItems change)).update id (.withParent parent)).mark
        expression := by
  have hsame : tree.update expression (.mapItems fun _ => change items) =
      tree.update expression (.mapItems change) := update_congr h rfl
  rw [relist, hsame]

/-- A symbol is found at its position when it is taken out. -/
theorem follows_guardedTakeOut (id : NodeId) (tree : Tree) :
    Follows (guardedTakeOut id) (takeOut id) tree := by
  refine Follows.ask fun (expression, index) hposition => ?_
  obtain ⟨_, owner, items, -, hnode, hindex⟩ := position_eq_ok_iff.mp hposition
  show (Guarded.look _ >>= _).run tree = .ok () (tree.detach id expression)
  rw [EStateM.run_bind, Guarded.run_look, items_of_node? hnode]
  show (Guarded.check _ >>= _).run tree = _
  rw [EStateM.run_bind, Guarded.run_check, remove_of_idxOf? hindex]
  exact congrArg (EStateM.Result.ok ()) (relist_eq hnode (List.erase · id))

/-- Releasing a symbol with every access checked follows releasing it. -/
theorem follows_guardedRelease (id : NodeId) (tree : Tree) :
    Follows (guardedRelease id) (release id) tree := by
  refine Follows.ask fun parent _ => ?_
  by_cases hparent : parent.isSome = true
  · rw [if_pos hparent, if_pos hparent]
    exact follows_guardedTakeOut id tree
  · rw [if_neg hparent, if_neg hparent]
    exact .pure _ _

/-- Nodes whose names have been given can be killed one by one. -/
theorem run_forM_guardedKill {dead : List NodeId} (h : ∀ y ∈ dead, y < tree.nextId) :
    (dead.forM guardedKill).run tree = .ok () (tree.killAll dead) := by
  induction dead generalizing tree with
  | nil => rfl
  | cons y dead ih =>
    obtain ⟨hy, hdead⟩ := List.forall_mem_cons.mp h
    show (guardedModifyCell y _ >>= fun _ => dead.forM guardedKill).run tree = _
    rw [EStateM.run_bind, run_guardedModifyCell hy]
    refine ih fun z hz => ?_
    rw [nextId_modifyCell]
    exact hdead z hz

namespace WellFormed

/-- The symbol behind which another one is put in is still found at its position when that one has
been taken out. -/
theorem follows_guardedInsertAfter (h : tree.WellFormed) (anchor id : NodeId) :
    Follows (guardedInsertAfter anchor id) (insertAfter anchor id) tree := by
  refine Follows.ask fun expression hdest => ?_
  obtain ⟨parent, _, hid, -⟩ := checkMovable_eq_ok_iff.mp (destination_eq_ok_iff.mp hdest).1
  obtain ⟨_, owner, items, -, hreleased, -, -, hexpression, hmem, -⟩ := h.landing hdest
  refine (follows_guardedRelease id tree).bind fun _ released hrelease => ?_
  rw [h.run_release hid] at hrelease
  cases hrelease
  obtain ⟨_, hanchor⟩ := hreleased.node?_of_mem hexpression hmem
  refine Follows.ask fun (parent, index) hposition => ?_
  obtain ⟨_, _, _, hnode, hlist, hindex⟩ := position_eq_ok_iff.mp hposition
  rw [hanchor] at hnode
  cases hnode
  rw [hexpression] at hlist
  cases hlist
  show (Guarded.look _ >>= _).run (tree.released id) =
    .ok () ((tree.released id).attach anchor id expression)
  rw [EStateM.run_bind, Guarded.run_look, items_of_node? hexpression]
  show (Guarded.check _ >>= _).run (tree.released id) = _
  rw [EStateM.run_bind, Guarded.run_check, insert_of_idxOf? hindex]
  exact congrArg (EStateM.Result.ok ()) (relist_eq hexpression (spliceAfter anchor id))

/-- In a well-formed tree adding a symbol with every access checked follows adding it. -/
theorem follows_guardedAdd (h : tree.WellFormed) (anchor : NodeId) (stroke : Stroke) :
    Follows (guardedAdd anchor stroke) (add anchor stroke) tree := by
  refine (follows_guardedCreate stroke tree).bind fun id grown hrun => ?_
  cases hrun
  exact ((h.pushSymbol stroke).follows_guardedInsertAfter anchor _).bind fun _ _ _ => .pure _ _

/-- The nodes which are deleted with a symbol have been given names. -/
theorem follows_guardedDelete (h : tree.WellFormed) (id : NodeId) :
    Follows (guardedDelete id) (Tree.delete id) tree := by
  refine Follows.ask fun _ hmovable => ?_
  obtain ⟨parent, symbol, hid, hsymbol⟩ := checkMovable_eq_ok_iff.mp hmovable
  refine (follows_guardedTakeOut id tree).bind fun _ detached hrun => ?_
  cases parent with
  | none =>
    have hposition : tree.position id = .error .noParent := by
      rw [position, Tree.node, hid]
      rfl
    rw [takeOut, EStateM.run_bind, Edit.run_look, hposition] at hrun
    cases hrun
  | some expression =>
    rw [h.run_takeOut hid] at hrun
    cases hrun
    obtain ⟨owner, items, hexpression, -⟩ := h.listed hid
    have hdetached := h.detach hid hsymbol hexpression
    refine Follows.ask_of_eq (hdetached.visit_eq id) fun dead hdead => ?_
    rw [h.descendants_detach hid] at hdead
    obtain ⟨ids, hids, hmem⟩ := h.descendants_eq hid
    rw [hids] at hdead
    cases hdead
    refine run_forM_guardedKill fun y hy => ?_
    obtain ⟨node, hnode⟩ := isLive_iff.mp ((hmem y).mp hy).1
    rw [nextId_detach]
    exact lt_nextId_of_node? hnode

end WellFormed

end FormulaEditor.Tree
