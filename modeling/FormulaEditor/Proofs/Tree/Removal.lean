import FormulaEditor.Proofs.Tree.Descent
import FormulaEditor.Proofs.Tree.Relisting

/-!
# Moves and deletions

When a symbol may be moved (`Tree.destination_eq_ok_iff`) or deleted (`Tree.deletion_eq_ok_iff`),
and that a tree stays well-formed when it is. Both edits change the tree before they have asked all
their questions. In a well-formed tree the later questions have answers, so that each edit does all
of its change or fails at its checks (`Tree.WellFormed.run_insertAfter`,
`Tree.WellFormed.run_delete`).
-/

set_option autoImplicit false

namespace FormulaEditor.Tree

/-- The tree after a symbol has been taken out of the expression in which it stands, if it stands in
one. -/
def released (tree : Tree) (id : NodeId) : Tree :=
  match tree.parent? id with
  | some old => tree.detach id old
  | none => tree

/-- The tree after a symbol has been moved into an expression, directly after another symbol. -/
def moveAfter (tree : Tree) (anchor id expression : NodeId) : Tree :=
  (tree.released id).attach anchor id expression

/-- The expression out of which a symbol is deleted, and all nodes which are deleted with it. -/
def deletion (tree : Tree) (id : NodeId) : Except Error (NodeId × List NodeId) := do
  tree.checkMovable id
  let (expression, _) ← tree.position id
  return (expression, ← tree.descendants id)

variable {tree : Tree} {id anchor expression : NodeId}

/-- The symbols which can be moved are those which are no start. -/
theorem checkMovable_eq_ok_iff : tree.checkMovable id = .ok () ↔
    ∃ parent symbol, tree.node? id = some ⟨parent, .symbol symbol⟩ ∧ symbol ≠ .start := by
  unfold checkMovable
  cases hsymbol : tree.symbol id with
  | error e =>
    simp only [bind, Except.bind, reduceCtorEq, false_iff, not_exists, not_and]
    intro parent symbol hnode
    rw [symbol_of_node? hnode] at hsymbol
    cases hsymbol
  | ok symbol =>
    obtain ⟨parent, hnode⟩ := symbol_eq_ok_iff.mp hsymbol
    by_cases hstart : symbol = .start
    · simp [bind, Except.bind, hstart, hnode]
    · simp [bind, Except.bind, hstart, hnode, pure, Except.pure]

/-- A symbol which is no start can be put in after every symbol which stands in an expression and is
not inside it. -/
theorem destination_eq_ok_iff : tree.destination anchor id = .ok expression ↔
    tree.checkMovable id = .ok () ∧ (∃ symbol, tree.symbol anchor = .ok symbol) ∧
      tree.contains id anchor = false ∧
        ∃ index, tree.position anchor = .ok (expression, index) := by
  unfold destination
  cases tree.checkMovable id with
  | error e => simp [bind, Except.bind]
  | ok checked =>
    cases tree.symbol anchor with
    | error e => simp [bind, Except.bind]
    | ok symbol =>
      cases tree.contains id anchor with
      | true => simp [bind, Except.bind]
      | false =>
        cases tree.position anchor with
        | error e => simp [bind, Except.bind]
        | ok place => simp [bind, Except.bind, pure, Except.pure, Prod.ext_iff]

/-- A symbol which is no start and stands in an expression can be deleted. -/
theorem deletion_eq_ok_iff {dead : List NodeId} : tree.deletion id = .ok (expression, dead) ↔
    tree.checkMovable id = .ok () ∧ (∃ index, tree.position id = .ok (expression, index)) ∧
      tree.descendants id = .ok dead := by
  unfold deletion
  cases tree.checkMovable id with
  | error e => simp [bind, Except.bind]
  | ok checked =>
    cases tree.position id with
    | error e => simp [bind, Except.bind]
    | ok place =>
      cases tree.descendants id with
      | error e => simp [bind, Except.bind]
      | ok ids => simp [bind, Except.bind, pure, Except.pure, Prod.ext_iff]

/-- A symbol which stands in an expression is in its list. -/
theorem exists_items_of_position {index : Nat}
    (hposition : tree.position id = .ok (expression, index)) :
    ∃ owner items, tree.node? expression = some ⟨owner, .expression items⟩ ∧ id ∈ items := by
  obtain ⟨kind, owner, items, -, hexpression, hindex⟩ := position_eq_ok_iff.mp hposition
  refine ⟨owner, items, hexpression, ?_⟩
  by_contra hmem
  rw [List.idxOf?_eq_none_iff.mpr hmem] at hindex
  cases hindex

/-! ## Removing everything inside a symbol -/

/-- One tree has all nodes of another one but those inside a symbol. -/
def Pruned (tree other : Tree) (id : NodeId) : Prop :=
  ∀ y node, other.node? y = some node ↔ tree.node? y = some node ∧ ¬ tree.Inside y id

/-- Removing the nodes inside a symbol removes nothing else. -/
theorem pruned_killAll {dead : List NodeId}
    (hdead : ∀ y, tree.isLive y = true → (y ∈ dead ↔ tree.Inside y id)) :
    Pruned tree (tree.killAll dead) id := by
  intro y node
  rw [node?_killAll]
  cases hy : tree.node? y with
  | none => simp
  | some found => simp [hdead y (isLive_iff.mpr ⟨found, hy⟩), and_comm]

namespace Pruned

variable {other : Tree} (h : Pruned tree other id) (orphan : tree.parent? id = none)

include h orphan

/-- What is below a node which is left is left. -/
theorem node?_of_parent {y z : NodeId} {kind : NodeKind} (hout : ¬ tree.Inside y id)
    (hz : tree.node? z = some ⟨some y, kind⟩) : other.node? z = some ⟨some y, kind⟩ := by
  refine (h z _).mpr ⟨hz, ?_⟩
  rwa [inside_iff_parent orphan (parent?_of_node? hz)]

/-- What is above a node which is left is left. -/
theorem node?_parent {y z : NodeId} {kind : NodeKind} {node : Node}
    (hz : other.node? z = some ⟨some y, kind⟩) (hy : tree.node? y = some node) :
    other.node? y = some node := by
  obtain ⟨hz, hout⟩ := (h z _).mp hz
  rw [inside_iff_parent orphan (parent?_of_node? hz)] at hout
  exact (h y _).mpr ⟨hy, hout⟩

/-- The way up from a node which is left is as before. -/
theorem grounded {y : NodeId} (hground : tree.Grounded y) (hout : ¬ tree.Inside y id) :
    other.Grounded y := by
  induction hground with
  | orphan live top => exact .orphan ((h _ _).mpr ⟨live, hout⟩) top
  | child live step _ ih =>
    refine .child ((h _ _).mpr ⟨live, hout⟩) step (ih ?_)
    rwa [inside_iff_parent orphan ((parent?_of_node? live).trans step)] at hout

/-- Where a symbol stands nowhere, removing everything inside it keeps a tree well-formed. -/
theorem wellFormed (htree : tree.WellFormed) {symbol : Symbol}
    (hid : tree.node? id = some ⟨none, .symbol symbol⟩) : other.WellFormed := by
  constructor
  case root =>
    obtain ⟨items, hroot⟩ := htree.root
    refine ⟨items, (h _ _).mpr ⟨hroot, fun hinside => ?_⟩⟩
    -- the root has no parent either, so it is only inside itself
    rw [← hinside.eq_of_orphan (parent?_of_node? hroot), hroot] at hid
    cases hid
  case lists =>
    intro expression owner items hnode
    obtain ⟨hnode, hout⟩ := (h _ _).mp hnode
    obtain ⟨nodup, first, others, rfl, hfirst, hothers⟩ := htree.lists hnode
    refine ⟨nodup, first, others, rfl, h.node?_of_parent orphan hout hfirst, fun z hz => ?_⟩
    obtain ⟨s, hs, hnode'⟩ := hothers z hz
    exact ⟨s, hs, h.node?_of_parent orphan hout hnode'⟩
  case listed =>
    intro y expression s hnode
    obtain ⟨owner, items, hexpression, hmem⟩ := htree.listed ((h _ _).mp hnode).1
    exact ⟨owner, items, h.node?_parent orphan hnode hexpression, hmem⟩
  case slots =>
    intro y parent s hnode
    obtain ⟨hnode, hout⟩ := (h _ _).mp hnode
    obtain ⟨nodup, hslots⟩ := htree.slots hnode
    refine ⟨nodup, fun slot hslot => ?_⟩
    obtain ⟨items, hexpression⟩ := hslots slot hslot
    exact ⟨items, h.node?_of_parent orphan hout hexpression⟩
  case owned =>
    intro y owner items hnode hroot
    obtain ⟨above, parent, s, rfl, habove, hslot⟩ := htree.owned ((h _ _).mp hnode).1 hroot
    exact ⟨above, parent, s, rfl, h.node?_parent orphan hnode habove, hslot⟩
  case grounded =>
    intro y hlive
    obtain ⟨node, hnode⟩ := isLive_iff.mp hlive
    obtain ⟨hnode, hout⟩ := (h _ _).mp hnode
    exact h.grounded orphan (htree.grounded (isLive_iff.mpr ⟨node, hnode⟩)) hout

end Pruned

/-! ## The two changes -/

section Released

variable {parent : Option NodeId} {symbol : Symbol}

/-- A symbol which is released stands nowhere, and nothing else has moved. -/
theorem WellFormed.released (h : tree.WellFormed)
    (hid : tree.node? id = some ⟨parent, .symbol symbol⟩) (hsymbol : symbol ≠ .start) :
    (tree.released id).WellFormed ∧ Moved tree (tree.released id) id ∧
      (tree.released id).node? id = some ⟨none, .symbol symbol⟩ := by
  rw [Tree.released, parent?_of_node? hid]
  cases parent with
  | none => exact ⟨h, Moved.refl tree id, hid⟩
  | some old =>
    obtain ⟨owner, items, hold, -⟩ := h.listed hid
    have hview := relisting_detach hid hold
    exact ⟨h.detach hid hsymbol hold, hview.toMoved, hview.node?_moved⟩

end Released

namespace WellFormed

/-- When a symbol which may be moved has been released, the place behind which it is put in is still
there, and is not inside it. -/
theorem landing (h : tree.WellFormed) (hdest : tree.destination anchor id = .ok expression) :
    ∃ symbol owner items, symbol ≠ .start ∧ (tree.released id).WellFormed ∧
      Moved tree (tree.released id) id ∧
      (tree.released id).node? id = some ⟨none, .symbol symbol⟩ ∧
      (tree.released id).node? expression = some ⟨owner, .expression items⟩ ∧ anchor ∈ items ∧
      ¬ tree.Inside expression id := by
  obtain ⟨hmovable, -, hcontains, index, hposition⟩ := destination_eq_ok_iff.mp hdest
  obtain ⟨parent, symbol, hid, hsymbol⟩ := checkMovable_eq_ok_iff.mp hmovable
  obtain ⟨_, _, hexpression, hmem⟩ := exists_items_of_position hposition
  obtain ⟨s, hanchor⟩ := h.node?_of_mem hexpression hmem
  have houtside : ¬ tree.Inside anchor id := by
    rw [← h.contains_iff, hcontains]
    exact Bool.false_ne_true
  have hne : anchor ≠ id := by
    rintro rfl
    exact houtside (Inside.refl _)
  obtain ⟨hreleased, hmoved, hid'⟩ := h.released hid hsymbol
  -- the anchor has not moved
  obtain ⟨owner, items, hexpression', hmem'⟩ := hreleased.listed (hmoved.node?_symbol hne hanchor)
  refine ⟨symbol, owner, items, hsymbol, hreleased, hmoved, hid', hexpression', hmem', ?_⟩
  exact fun hinside => houtside (Inside.child (parent?_of_node? hanchor) hinside)

/-- Moving a symbol keeps a tree well-formed. -/
theorem moveAfter (h : tree.WellFormed) (hdest : tree.destination anchor id = .ok expression) :
    (tree.moveAfter anchor id expression).WellFormed := by
  obtain ⟨symbol, owner, items, hsymbol, hreleased, hmoved, hid, hexpression, hmem, houtside⟩ :=
    h.landing hdest
  refine hreleased.attach hid hsymbol hexpression hmem ?_
  rwa [hmoved.inside_iff]

/-- A move changes nothing but where the symbol stands, which is the expression afterwards. -/
theorem moved_moveAfter (h : tree.WellFormed)
    (hdest : tree.destination anchor id = .ok expression) :
    Moved tree (tree.moveAfter anchor id expression) id ∧
      (tree.moveAfter anchor id expression).parent? id = some expression ∧
      ¬ tree.Inside expression id := by
  obtain ⟨symbol, owner, items, -, -, hmoved, hid, hexpression, hmem, houtside⟩ := h.landing hdest
  have hview := relisting_attach hid hexpression hmem
  exact ⟨hmoved.trans hview.toMoved, parent?_of_node? hview.node?_moved, houtside⟩

/-- A symbol which is deleted stands in an expression, and what is removed once it has been taken out
are the nodes inside it. -/
theorem pruned_of_deletion (h : tree.WellFormed) {dead : List NodeId}
    (hdel : tree.deletion id = .ok (expression, dead)) :
    ∃ symbol owner items, symbol ≠ .start ∧
      tree.node? id = some ⟨some expression, .symbol symbol⟩ ∧
      tree.node? expression = some ⟨owner, .expression items⟩ ∧
      Pruned (tree.detach id expression) ((tree.detach id expression).killAll dead) id := by
  obtain ⟨hmovable, ⟨index, hposition⟩, hdescendants⟩ := deletion_eq_ok_iff.mp hdel
  obtain ⟨parent, symbol, hid, hsymbol⟩ := checkMovable_eq_ok_iff.mp hmovable
  obtain ⟨owner, items, hexpression, hmem⟩ := exists_items_of_position hposition
  obtain ⟨s, hnode⟩ := h.node?_of_mem hexpression hmem
  rw [hid] at hnode
  cases hnode
  have hview := relisting_detach hid hexpression
  refine ⟨symbol, owner, items, hsymbol, hid, hexpression, pruned_killAll fun y hlive => ?_⟩
  -- what is inside the symbol is the same before and after it is taken out
  rw [hview.toMoved.inside_iff]
  rw [hview.isLive_eq] at hlive
  obtain ⟨ids, hids, hmem'⟩ := h.descendants_eq hid
  rw [hdescendants] at hids
  cases hids
  rw [hmem', and_iff_right hlive]

/-- Deleting a symbol keeps a tree well-formed. -/
theorem delete (h : tree.WellFormed) {dead : List NodeId}
    (hdel : tree.deletion id = .ok (expression, dead)) :
    ((tree.detach id expression).killAll dead).WellFormed := by
  obtain ⟨symbol, owner, items, hsymbol, hid, hexpression, hpruned⟩ := h.pruned_of_deletion hdel
  have hmoved := (relisting_detach hid hexpression).node?_moved
  exact hpruned.wellFormed (parent?_of_node? hmoved) (h.detach hid hsymbol hexpression) hmoved

end WellFormed

/-! ## The two edits -/

namespace WellFormed

/-- A symbol which has a parent has a place in its list. -/
theorem exists_position (h : tree.WellFormed) {symbol : Symbol}
    (hid : tree.node? id = some ⟨some expression, .symbol symbol⟩) :
    ∃ index, tree.position id = .ok (expression, index) := by
  obtain ⟨owner, items, hexpression, hmem⟩ := h.listed hid
  cases hindex : items.idxOf? id with
  | none => exact absurd hmem (List.idxOf?_eq_none_iff.mp hindex)
  | some index =>
    exact ⟨index, position_eq_ok_iff.mpr ⟨_, owner, items, hid, hexpression, hindex⟩⟩

/-- A symbol which stands in an expression can be taken out of it. -/
theorem run_takeOut (h : tree.WellFormed) {symbol : Symbol}
    (hid : tree.node? id = some ⟨some expression, .symbol symbol⟩) :
    (takeOut id).run tree = .ok () (tree.detach id expression) := by
  obtain ⟨index, hposition⟩ := h.exists_position hid
  rw [takeOut, EStateM.run_bind, Edit.run_look, hposition]
  rfl

/-- Every symbol can be released from where it stands. -/
theorem run_release (h : tree.WellFormed) {parent : Option NodeId} {symbol : Symbol}
    (hid : tree.node? id = some ⟨parent, .symbol symbol⟩) :
    (release id).run tree = .ok () (tree.released id) := by
  have hparent : tree.parent id = .ok parent := by
    rw [Tree.parent, Tree.node, hid]
    rfl
  rw [release, EStateM.run_bind, Edit.run_look, hparent, Tree.released, parent?_of_node? hid]
  cases parent with
  | none => rfl
  | some old => exact h.run_takeOut hid

/-- A move fails at its checks or is done as a whole: when the symbol has been taken out, the place
behind which it is put in is still there. -/
theorem run_insertAfter (h : tree.WellFormed) (anchor id : NodeId) :
    (insertAfter anchor id).run tree = match tree.destination anchor id with
      | .ok expression => .ok () (tree.moveAfter anchor id expression)
      | .error e => .error e tree := by
  rw [insertAfter, EStateM.run_bind, Edit.run_look]
  cases hdest : tree.destination anchor id with
  | error e => rfl
  | ok expression =>
    obtain ⟨parent, _, hid, -⟩ := checkMovable_eq_ok_iff.mp (destination_eq_ok_iff.mp hdest).1
    obtain ⟨_, _, _, -, hreleased, -, -, hexpression, hmem, -⟩ := h.landing hdest
    obtain ⟨_, hanchor⟩ := hreleased.node?_of_mem hexpression hmem
    obtain ⟨index, hposition⟩ := hreleased.exists_position hanchor
    simp only [EStateM.run_bind, h.run_release hid, Edit.run_look, hposition]
    rfl

/-- Two trees with the same nodes below a node and below all nodes inside it are walked down from it
in the same way. -/
theorem descendantsWithin_congr (h : tree.WellFormed) {other : Tree}
    (same : ∀ y node, tree.node? y = some node → tree.Inside y id →
      ∃ node', other.node? y = some node' ∧ node'.below = node.below)
    (fuel : Nat) {y : NodeId} (hlive : tree.isLive y = true) (hinside : tree.Inside y id) :
    other.descendantsWithin fuel y = tree.descendantsWithin fuel y := by
  induction fuel generalizing y with
  | zero => rfl
  | succ fuel ih =>
    obtain ⟨node, hnode⟩ := isLive_iff.mp hlive
    obtain ⟨node', hnode', hbelow⟩ := same y node hnode hinside
    have hchildren : ∀ child ∈ node.below,
        other.descendantsWithin fuel child = tree.descendantsWithin fuel child := by
      intro child hmem
      have hparent := (h.mem_below_iff hnode).mp hmem
      obtain ⟨kind, hchild⟩ := node?_of_parent? hparent
      exact ih (isLive_iff.mpr ⟨_, hchild⟩) (Inside.child hparent hinside)
    rw [descendantsWithin, descendantsWithin, Tree.node, Tree.node, hnode, hnode']
    show (do return y :: (← node'.below.mapM (other.descendantsWithin fuel)).flatten) = _
    rw [hbelow, mapM_congr hchildren]
    rfl

/-- Two well-formed trees with the same nodes below a node and below all nodes inside it find the
same descendants of the node. -/
theorem descendants_congr (h : tree.WellFormed) {other : Tree} (hother : other.WellFormed)
    (same : ∀ y node, tree.node? y = some node → tree.Inside y id →
      ∃ node', other.node? y = some node' ∧ node'.below = node.below)
    (hlive : tree.isLive id = true) : other.descendants id = tree.descendants id := by
  obtain ⟨node, hnode⟩ := isLive_iff.mp hlive
  obtain ⟨node', hnode', -⟩ := same id node hnode (Inside.refl id)
  -- with fuel for both of them the walks in the two trees can be compared
  have hfuel := h.descendantsWithin_congr same (other.cells.size + tree.cells.size + 1) hlive
    (Inside.refl id)
  rw [descendants, descendants, h.descendantsWithin_eq_of_lt hlive _ _,
    hother.descendantsWithin_eq_of_lt (isLive_iff.mpr ⟨_, hnode'⟩) _ _, hfuel] <;> omega

/-- What is inside a symbol is the same before and after the symbol is taken out. -/
theorem descendants_detach (h : tree.WellFormed) {symbol : Symbol}
    (hid : tree.node? id = some ⟨some expression, .symbol symbol⟩) :
    (tree.detach id expression).descendants id = tree.descendants id := by
  obtain ⟨owner, items, hexpression, -⟩ := h.listed hid
  have hview := relisting_detach hid hexpression
  have hground := h.grounded (isLive_iff.mpr ⟨_, hid⟩)
  have hparent := parent?_of_node? hid
  have hsize : (tree.detach id expression).cells.size = tree.cells.size := tree.nextId_detach _ _
  rw [descendants, descendants, hsize]
  refine @descendantsWithin_congr tree id h _ (fun y node hy hinside => ?_) _ _
    (isLive_iff.mpr ⟨_, hid⟩) (Inside.refl _)
  by_cases heq : y = id
  · subst heq
    rw [hid] at hy
    cases hy
    exact ⟨_, hview.node?_moved, rfl⟩
  · have hne : y ≠ expression := by
      rintro rfl
      exact hground.acyclic hparent hinside
    exact ⟨node, (hview.node?_rest heq hne).trans hy, rfl⟩

/-- A deletion fails at its checks or is done as a whole: the walk down from the symbol still passes
the same nodes when the symbol has been taken out. -/
theorem run_delete (h : tree.WellFormed) (id : NodeId) :
    (Tree.delete id).run tree = match tree.deletion id with
      | .ok (expression, dead) => .ok () ((tree.detach id expression).killAll dead)
      | .error e => .error e tree := by
  rw [Tree.delete, deletion, EStateM.run_bind, Edit.run_look]
  cases hmovable : tree.checkMovable id with
  | error e => rfl
  | ok checked =>
    obtain ⟨parent, symbol, hid, -⟩ := checkMovable_eq_ok_iff.mp hmovable
    simp only [EStateM.run_bind]
    cases parent with
    | none =>
      have hposition : tree.position id = .error .noParent := by
        rw [position, Tree.node, hid]
        rfl
      rw [takeOut, EStateM.run_bind, Edit.run_look, hposition]
      rfl
    | some expression =>
      obtain ⟨index, hposition⟩ := h.exists_position hid
      obtain ⟨ids, hids, -⟩ := h.descendants_eq hid
      have hdetached := (h.descendants_detach hid).trans hids
      simp only [h.run_takeOut hid, Edit.run_look, hdetached, hposition, hids]
      rfl

end WellFormed

end FormulaEditor.Tree
