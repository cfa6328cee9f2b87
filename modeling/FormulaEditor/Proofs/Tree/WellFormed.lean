import FormulaEditor.Proofs.Tree.Ancestry

/-!
# Well-formed trees

Who stands where is kept twice in a tree: an expression lists its symbols and a symbol names its
slots, and every node names its parent. A tree is well-formed (`Tree.WellFormed`) if the two agree,
every expression begins with its only start, and the way up from every live node ends.

In a well-formed tree the nodes directly below a node are those whose parent it is
(`Tree.WellFormed.mem_below_iff`), the bounded walks upwards and downwards find the same nodes
(`Tree.WellFormed.descendants_eq`), and properties can be proved from the children to the parents
(`Tree.WellFormed.wellFounded_child`).
-/

set_option autoImplicit false

namespace FormulaEditor.Tree

/-- What the list of an expression has to be: it begins with a live start, holds no other start and
no symbol twice, and every symbol in it is live and has the expression as its parent. -/
structure Lists (tree : Tree) (expression : NodeId) (items : List NodeId) : Prop where
  nodup : items.Nodup
  start : ∃ first others, items = first :: others ∧
    tree.node? first = some ⟨some expression, .symbol .start⟩ ∧
      ∀ id ∈ others, ∃ symbol, symbol ≠ .start ∧
        tree.node? id = some ⟨some expression, .symbol symbol⟩

/-- Lists, slots and parents agree, and every way up ends. -/
structure WellFormed (tree : Tree) : Prop where
  /-- The root is a live expression without a parent. -/
  root : ∃ items, tree.node? root = some ⟨none, .expression items⟩
  lists {expression : NodeId} {owner : Option NodeId} {items : List NodeId} :
    tree.node? expression = some ⟨owner, .expression items⟩ → tree.Lists expression items
  /-- A symbol with a parent is listed by it. -/
  listed {id expression : NodeId} {symbol : Symbol} :
    tree.node? id = some ⟨some expression, .symbol symbol⟩ →
      ∃ owner items, tree.node? expression = some ⟨owner, .expression items⟩ ∧ id ∈ items
  /-- The slots of a symbol are distinct live expressions which have it as their parent. -/
  slots {id : NodeId} {parent : Option NodeId} {symbol : Symbol} :
    tree.node? id = some ⟨parent, .symbol symbol⟩ →
      symbol.slots.Nodup ∧
        ∀ slot ∈ symbol.slots, ∃ items, tree.node? slot = some ⟨some id, .expression items⟩
  /-- Every expression but the root is a slot of its parent. -/
  owned {expression : NodeId} {owner : Option NodeId} {items : List NodeId} :
    tree.node? expression = some ⟨owner, .expression items⟩ → expression ≠ Tree.root →
      ∃ id parent symbol, owner = some id ∧
        tree.node? id = some ⟨parent, .symbol symbol⟩ ∧ expression ∈ symbol.slots
  grounded {id : NodeId} : tree.isLive id = true → tree.Grounded id

/-- Whether a tree is well-formed only depends on which nodes it has. -/
theorem WellFormed.congr {tree other : Tree} (h : tree.WellFormed)
    (same : ∀ id, other.node? id = tree.node? id) : other.WellFormed := by
  have hlive : ∀ id, other.isLive id = tree.isLive id := fun id => by
    unfold isLive
    rw [same]
  constructor
  case root => simpa only [same] using h.root
  case lists =>
    intro expression owner items hnode
    rw [same] at hnode
    obtain ⟨nodup, start⟩ := h.lists hnode
    exact ⟨nodup, by simpa only [same] using start⟩
  case listed =>
    intro id expression symbol hnode
    simp only [same] at hnode ⊢
    exact h.listed hnode
  case slots =>
    intro id parent symbol hnode
    simp only [same] at hnode ⊢
    exact h.slots hnode
  case owned =>
    intro expression owner items hnode
    simp only [same] at hnode ⊢
    exact h.owned hnode
  case grounded =>
    intro id hid
    rw [hlive] at hid
    have hground := h.grounded hid
    clear hid
    induction hground with
    | orphan live top => exact .orphan (by rwa [same]) top
    | child live step _ ih => exact .child (by rwa [same]) step ih

namespace WellFormed

variable {tree : Tree}

/-- Every symbol in the list of an expression is live and has it as its parent. -/
theorem node?_of_mem {expression : NodeId} {owner : Option NodeId} {items : List NodeId}
    (h : tree.WellFormed) (hnode : tree.node? expression = some ⟨owner, .expression items⟩)
    {id : NodeId} (hid : id ∈ items) :
    ∃ symbol, tree.node? id = some ⟨some expression, .symbol symbol⟩ := by
  obtain ⟨first, others, rfl, hfirst, hothers⟩ := (h.lists hnode).start
  rcases List.mem_cons.mp hid with rfl | hid
  · exact ⟨_, hfirst⟩
  · obtain ⟨symbol, -, hsymbol⟩ := hothers id hid
    exact ⟨symbol, hsymbol⟩

/-- No symbol stands twice in its expression. -/
theorem notMem_of_split {expression id : NodeId} {owner : Option NodeId} {front back : List NodeId}
    (h : tree.WellFormed)
    (hnode : tree.node? expression = some ⟨owner, .expression (front ++ id :: back)⟩) :
    id ∉ front := fun hmem =>
  (List.nodup_append.mp (h.lists hnode).nodup).2.2 id hmem id List.mem_cons_self rfl

/-- An expression with a parent is a slot of the symbol which is its parent. -/
theorem slot_of_parent (h : tree.WellFormed) {expression id : NodeId} {items : List NodeId}
    (hnode : tree.node? expression = some ⟨some id, .expression items⟩) :
    ∃ parent symbol, tree.node? id = some ⟨parent, .symbol symbol⟩ ∧
      expression ∈ symbol.slots := by
  have hne : expression ≠ Tree.root := by
    rintro rfl
    obtain ⟨_, hroot⟩ := h.root
    rw [hnode] at hroot
    cases hroot
  obtain ⟨_, parent, symbol, howner, hsymbol, hmem⟩ := h.owned hnode hne
  cases howner
  exact ⟨parent, symbol, hsymbol, hmem⟩

/-- The nodes directly below a node are those whose parent it is. -/
theorem mem_below_iff (h : tree.WellFormed) {id child : NodeId} {node : Node}
    (hnode : tree.node? id = some node) :
    child ∈ node.below ↔ tree.parent? child = some id := by
  obtain ⟨parent, items | symbol⟩ := node
  · constructor
    · intro hmem
      obtain ⟨symbol, hchild⟩ := h.node?_of_mem hnode hmem
      exact parent?_of_node? hchild
    · intro hparent
      obtain ⟨_ | found, hchild⟩ := node?_of_parent? hparent
      · -- the parent of an expression is a symbol
        obtain ⟨_, _, hsymbol, -⟩ := h.slot_of_parent hchild
        rw [hnode] at hsymbol
        cases hsymbol
      · obtain ⟨owner, items', hexpr, hmem⟩ := h.listed hchild
        rw [hnode] at hexpr
        cases hexpr
        exact hmem
  · constructor
    · intro hmem
      obtain ⟨items, hchild⟩ := (h.slots hnode).2 child hmem
      exact parent?_of_node? hchild
    · intro hparent
      obtain ⟨items | found, hchild⟩ := node?_of_parent? hparent
      · obtain ⟨_, _, hsymbol, hmem⟩ := h.slot_of_parent hchild
        rw [hnode] at hsymbol
        cases hsymbol
        exact hmem
      · obtain ⟨_, _, hexpr, -⟩ := h.listed hchild
        rw [hnode] at hexpr
        cases hexpr

/-- The symbols in the list of an expression have it as their parent. -/
theorem parent?_of_mem (h : tree.WellFormed) {expression id : NodeId} {owner : Option NodeId}
    {items : List NodeId} (hnode : tree.node? expression = some ⟨owner, .expression items⟩)
    (hid : id ∈ items) : tree.parent? id = some expression :=
  (h.mem_below_iff hnode).mp hid

/-- The root has no parent. -/
theorem parent?_root (h : tree.WellFormed) : tree.parent? Tree.root = none := by
  obtain ⟨items, hroot⟩ := h.root
  exact parent?_of_node? hroot

/-- Only the root is an expression without an owner. -/
theorem eq_root_of_orphan (h : tree.WellFormed) {expression : NodeId} {items : List NodeId}
    (hnode : tree.node? expression = some ⟨none, .expression items⟩) :
    expression = Tree.root := by
  by_contra hne
  obtain ⟨_, _, _, ⟨⟩, -⟩ := h.owned hnode hne

/-- A node and its parent are inside the root or both are not. -/
theorem inside_root_iff (h : tree.WellFormed) {id parent : NodeId}
    (hparent : tree.parent? id = some parent) :
    tree.Inside id Tree.root ↔ tree.Inside parent Tree.root :=
  inside_iff_parent h.parent?_root hparent

/-- A symbol inside the root stands in an expression inside the root. -/
theorem exists_parent_of_inside (h : tree.WellFormed) {id : NodeId} {owner : Option NodeId}
    {symbol : Symbol} (hid : tree.node? id = some ⟨owner, .symbol symbol⟩)
    (hinside : tree.Inside id Tree.root) :
    ∃ expression, owner = some expression ∧ tree.Inside expression Tree.root := by
  obtain rfl | ⟨parent, hparent, hup⟩ := inside_iff.mp hinside
  · obtain ⟨items, hroot⟩ := h.root
    rw [hroot] at hid
    cases hid
  · exact ⟨parent, (parent?_of_node? hid).symm.trans hparent, hup⟩

/-- No node is listed twice directly below another one. -/
theorem nodup_below (h : tree.WellFormed) {id : NodeId} {node : Node}
    (hnode : tree.node? id = some node) : node.below.Nodup := by
  obtain ⟨parent, items | symbol⟩ := node
  · exact (h.lists hnode).nodup
  · exact (h.slots hnode).1

/-- The nodes above a node are its parent and the nodes above that. Above a node which is not live
there is nothing. -/
theorem ancestors_eq (h : tree.WellFormed) (id : NodeId) :
    tree.ancestors id = id :: match tree.parent? id with
      | none => []
      | some parent => tree.ancestors parent := by
  cases hparent : tree.parent? id with
  | none => rw [ancestors, ancestorsWithin, hparent]
  | some parent =>
    obtain ⟨kind, hid⟩ := node?_of_parent? hparent
    rw [(h.grounded (isLive_iff.mpr ⟨_, hid⟩)).ancestors_eq, hparent]

/-- The search upwards finds the nodes which a node is inside of, also from a node which is not
live. -/
theorem contains_iff (h : tree.WellFormed) (outer id : NodeId) :
    tree.contains outer id = true ↔ tree.Inside id outer := by
  cases hid : tree.node? id with
  | some node => exact (h.grounded (isLive_iff.mpr ⟨node, hid⟩)).contains_iff
  | none =>
    have horphan : tree.parent? id = none := by
      unfold parent?
      rw [hid]
      rfl
    unfold contains
    rw [h.ancestors_eq, horphan, List.contains_iff_mem, List.mem_singleton]
    constructor
    · rintro rfl
      exact Inside.refl _
    · intro hinside
      exact (hinside.eq_of_orphan horphan).symm

/-- The step from a parent to a child can only be made finitely often, so a property which passes
from the children of a node to the node holds everywhere. -/
theorem wellFounded_child (h : tree.WellFormed) :
    WellFounded fun child id => tree.parent? child = some id := by
  refine Subrelation.wf ?_
    (measure fun id => tree.cells.size + 1 - (tree.ancestors id).length).wf
  intro child id hparent
  obtain ⟨kind, hchild⟩ := node?_of_parent? hparent
  have hground := h.grounded (isLive_iff.mpr ⟨_, hchild⟩)
  have hlength := hground.length_ancestors hparent
  have hbound : (tree.ancestors child).length ≤ tree.cells.size := hground.length_ancestors_le
  show tree.cells.size + 1 - (tree.ancestors child).length <
    tree.cells.size + 1 - (tree.ancestors id).length
  omega

end WellFormed

end FormulaEditor.Tree
