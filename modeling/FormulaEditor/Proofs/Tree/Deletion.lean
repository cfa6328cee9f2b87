import FormulaEditor.Proofs.Tree.Neighbours
import FormulaEditor.Proofs.Tree.Order

/-!
# What a deletion does

A symbol which stands in an expression and is no start can be deleted. The nodes which die with it
are those found by the walk downwards from it, the list of the expression closes over it, and
nothing else happens (`Tree.Cut`). Which nodes these are, and in which order they are found, can
also be told by looking upwards (`Tree.Reachable.descendants_ordered`).
-/

set_option autoImplicit false

namespace FormulaEditor.Tree

/-- One tree is another one out of which a symbol has been cut, which stood in an expression, and
given nodes with it. -/
structure Cut (tree other : Tree) (id expression : NodeId) (dead : List NodeId) : Prop where
  /-- The given nodes have died, and no others. -/
  isLive_iff : ∀ y, other.isLive y = true ↔ tree.isLive y = true ∧ y ∉ dead
  /-- The list of the expression is its old one without the symbol. -/
  listing : ∃ owner front back,
    tree.node? expression = some ⟨owner, .expression (front ++ id :: back)⟩ ∧
    other.node? expression = some ⟨owner, .expression (front ++ back)⟩
  rest : ∀ y, y ∉ dead → y ≠ expression → other.node? y = tree.node? y

variable {tree : Tree} {id expression : NodeId} {symbol : Symbol}

namespace WellFormed

/-- A symbol which stands in an expression and is no start can be deleted. -/
theorem deletion_eq (h : tree.WellFormed)
    (hid : tree.node? id = some ⟨some expression, .symbol symbol⟩) (hsymbol : symbol ≠ .start) :
    tree.deletion id = .ok (expression, tree.inner id) :=
  deletion_eq_ok_iff.mpr ⟨checkMovable_eq_ok_iff.mpr ⟨_, symbol, hid, hsymbol⟩,
    h.exists_position hid, h.descendants_eq_inner (isLive_iff.mpr ⟨_, hid⟩)⟩

/-- A deletion cuts out what is inside the symbol. -/
theorem cut (h : tree.WellFormed) (hid : tree.node? id = some ⟨some expression, .symbol symbol⟩) :
    Cut tree ((tree.detach id expression).killAll (tree.inner id)) id expression
      (tree.inner id) := by
  have hlive := isLive_iff.mpr ⟨_, hid⟩
  obtain ⟨owner, front, back, hexpression, -⟩ := h.exists_split hid
  have hview := relisting_detach hid hexpression
  have herase : (front ++ id :: back).erase id = front ++ back := by
    rw [List.erase_append_right _ (h.notMem_of_split hexpression), List.erase_cons_head]
  have houtside : expression ∉ tree.inner id := fun hmem =>
    h.not_inside_of_parent (parent?_of_node? hid) ((h.mem_inner_iff hlive).mp hmem).2
  refine ⟨fun y => ?_, ⟨owner, front, back, hexpression, ?_⟩, fun y hy hne => ?_⟩
  · rw [← hview.isLive_eq, isLive, isLive, node?_killAll]
    by_cases hy : y ∈ tree.inner id
    · simp [hy]
    · simp [hy]
  · rw [node?_killAll, if_neg houtside, hview.node?_listing, herase]
  · have hyid : y ≠ id := by
      rintro rfl
      exact hy ((h.mem_inner_iff hlive).mpr ⟨hlive, Inside.refl _⟩)
    rw [node?_killAll, if_neg hy, hview.node?_rest hyid hne]

end WellFormed

/-- The walk downwards from a live node passes each node inside it once, in display order, and these
are the live nodes from which the search upwards finds the node. From the nodes without a parent
every live node is found, and from only one of them. What is found from a symbol which stands in an
expression and is no start is what dies when the symbol is deleted. -/
theorem Reachable.descendants_ordered (h : tree.Reachable) (hlive : tree.isLive id = true) :
    ∃ ids, tree.descendants id = .ok ids ∧ ids.Nodup ∧
      (∀ x, x ∈ ids ↔ tree.isLive x = true ∧ tree.contains id x = true) ∧
      (∀ x y, [x, y].Sublist ids ↔ x ∈ ids ∧ y ∈ ids ∧ tree.Precedes x y) ∧
      (∀ x, tree.isLive x = true → ∃! top, tree.isLive top = true ∧ tree.parent? top = none ∧
        ∃ below, tree.descendants top = .ok below ∧ x ∈ below) ∧
      ∀ expression symbol, tree.node? id = some ⟨some expression, .symbol symbol⟩ →
        symbol ≠ .start →
          ∃ after, (delete id).run tree = .ok () after ∧ Cut tree after id expression ids := by
  have htree := h.wellFormed
  refine ⟨tree.inner id, htree.descendants_eq_inner hlive, htree.nodup_inner hlive, fun x => ?_,
    fun x y => htree.sublist_inner_iff hlive, fun x hx => ?_,
    fun expression symbol hid hsymbol => ?_⟩
  · rw [htree.mem_inner_iff hlive, htree.contains_iff]
  · obtain ⟨top, ⟨htop, horphan, hmem⟩, hunique⟩ := htree.existsUnique_top hx
    refine ⟨top, ⟨htop, horphan, _, htree.descendants_eq_inner htop, hmem⟩, ?_⟩
    rintro other ⟨hother, horphan', below, hbelow, hmem'⟩
    rw [htree.descendants_eq_inner hother] at hbelow
    cases hbelow
    exact hunique other ⟨hother, horphan', hmem'⟩
  · have hrun := htree.run_delete id
    rw [htree.deletion_eq hid hsymbol] at hrun
    exact ⟨_, hrun, htree.cut hid⟩

/-- A root in front of `2` is deleted with its radicand, in a tree with a loose fraction. -/
theorem descendants_of_radical :
    let tree := empty.run [.create .radical, .insertAfter 1 2, .create (.atom 'x'),
      .insertAfter 4 5, .create (.atom '2'), .insertAfter 2 6, .create .fraction]
    tree.Reachable ∧ tree.descendants 2 = .ok [2, 3, 4, 5] ∧ tree.Precedes 4 5 ∧
      (∃! top, tree.isLive top = true ∧ tree.parent? top = none ∧
        ∃ below, tree.descendants top = .ok below ∧ 9 ∈ below) ∧
      ∃ after, (delete 2).run tree = .ok () after ∧ Cut tree after 2 root [2, 3, 4, 5] := by
  intro tree
  have hreach : tree.Reachable := reachable_run _
  have hids : tree.descendants 2 = .ok [2, 3, 4, 5] := rfl
  have hid : tree.node? 2 = some ⟨some root, .symbol (.radical 3)⟩ := rfl
  have hloose : tree.isLive 9 = true := rfl
  obtain ⟨ids, hids', -, -, horder, htops, hdelete⟩ :=
    hreach.descendants_ordered (isLive_iff.mpr ⟨_, hid⟩)
  rw [hids] at hids'
  cases hids'
  exact ⟨hreach, hids, ((horder 4 5).mp (by decide)).2.2, htops 9 hloose,
    hdelete root (.radical 3) hid (by decide)⟩

end FormulaEditor.Tree
