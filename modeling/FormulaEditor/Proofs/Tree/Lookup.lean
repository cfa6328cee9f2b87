import FormulaEditor.Tree.Edit

/-!
# Looking up nodes

The proofs about trees look at a tree through `Tree.node?` only. Here the readers of a tree are
expressed by it, and for every update it is said which node has a given name afterwards.
-/

set_option autoImplicit false

namespace FormulaEditor.Tree

variable (tree : Tree)

/-- What is a node has a name which has been given. -/
theorem lt_nextId_of_node? {tree : Tree} {id : NodeId} {node : Node}
    (h : tree.node? id = some node) : id < tree.nextId := by
  unfold node? at h
  obtain ⟨cell, hcell, -⟩ := Option.bind_eq_some_iff.mp h
  exact (Array.getElem?_eq_some_iff.mp hcell).1

/-- No live node has the next name or one after it. -/
theorem ne_nextId_add_of_node? {tree : Tree} {id : NodeId} {node : Node}
    (h : tree.node? id = some node) (k : Nat) : id ≠ tree.nextId + k :=
  Nat.ne_of_lt (Nat.lt_add_right k (lt_nextId_of_node? h))

/-- A name which has not been given yet denotes no node. -/
theorem node?_of_nextId_le {id : NodeId} (h : tree.nextId ≤ id) : tree.node? id = none := by
  unfold node?
  rw [Array.getElem?_eq_none (by simpa [nextId] using h)]
  rfl

/-! ## Readers -/

section

variable {tree : Tree}

/-- The parent of a node can be told from the node. -/
theorem parent?_of_node? {id : NodeId} {node : Node} (h : tree.node? id = some node) :
    tree.parent? id = node.parent := by
  unfold parent?
  rw [h]
  rfl

/-- What has a parent is a node. -/
theorem node?_of_parent? {id parent : NodeId} (h : tree.parent? id = some parent) :
    ∃ kind, tree.node? id = some ⟨some parent, kind⟩ := by
  obtain ⟨⟨_, kind⟩, hnode, hparent⟩ := Option.bind_eq_some_iff.mp h
  cases hparent
  exact ⟨kind, hnode⟩

/-- What is live is a node. -/
theorem isLive_iff {id : NodeId} : tree.isLive id = true ↔ ∃ node, tree.node? id = some node :=
  Option.isSome_iff_exists

/-- A symbol is read exactly under the name of a symbol. -/
theorem symbol_eq_ok_iff {id : NodeId} {symbol : Symbol} :
    tree.symbol id = .ok symbol ↔ ∃ parent, tree.node? id = some ⟨parent, .symbol symbol⟩ := by
  unfold Tree.symbol Tree.node
  rcases tree.node? id with _ | ⟨parent, items | found⟩
  · simp [bind, Except.bind]
  · simp [bind, Except.bind]
  · simp [bind, Except.bind, pure, Except.pure]

/-- The symbol under a name can be told from the node. -/
theorem symbol_of_node? {id : NodeId} {parent : Option NodeId} {symbol : Symbol}
    (h : tree.node? id = some ⟨parent, .symbol symbol⟩) : tree.symbol id = .ok symbol :=
  symbol_eq_ok_iff.mpr ⟨parent, h⟩

/-- A list of symbols is read exactly under the name of an expression. -/
theorem items_eq_ok_iff {expression : NodeId} {items : List NodeId} :
    tree.items expression = .ok items ↔
      ∃ owner, tree.node? expression = some ⟨owner, .expression items⟩ := by
  unfold Tree.items Tree.node
  rcases tree.node? expression with _ | ⟨owner, found | symbol⟩
  · simp [bind, Except.bind]
  · simp [bind, Except.bind, pure, Except.pure]
  · simp [bind, Except.bind]

/-- The list of an expression can be told from the node. -/
theorem items_of_node? {expression : NodeId} {owner : Option NodeId} {items : List NodeId}
    (h : tree.node? expression = some ⟨owner, .expression items⟩) :
    tree.items expression = .ok items :=
  items_eq_ok_iff.mpr ⟨owner, h⟩

/-- A node has a position exactly if its parent is an expression in whose list it is. -/
theorem position_eq_ok_iff {id expression : NodeId} {index : Nat} :
    tree.position id = .ok (expression, index) ↔ ∃ kind owner items,
      tree.node? id = some ⟨some expression, kind⟩ ∧
        tree.node? expression = some ⟨owner, .expression items⟩ ∧
          items.idxOf? id = some index := by
  unfold position Tree.node
  rcases tree.node? id with _ | ⟨_ | above, kind⟩
  · simp [bind, Except.bind]
  · simp [bind, Except.bind]
  · simp only [bind, Except.bind]
    cases hitems : tree.items above with
    | error e =>
      simp only [reduceCtorEq, false_iff, not_exists, not_and]
      rintro _ owner items hid hnode -
      cases hid
      rw [items_of_node? hnode] at hitems
      cases hitems
    | ok items =>
      obtain ⟨owner, hnode⟩ := items_eq_ok_iff.mp hitems
      constructor
      · intro h
        cases hindex : items.idxOf? id with
        | none => simp [hindex] at h
        | some found =>
          simp only [hindex, pure, Except.pure, Except.ok.injEq, Prod.mk.injEq] at h
          obtain ⟨rfl, rfl⟩ := h
          exact ⟨kind, owner, items, rfl, hnode, hindex⟩
      · rintro ⟨_, _, _, hid, hnode', hindex⟩
        cases hid
        rw [hnode] at hnode'
        cases hnode'
        simp [hindex, pure, Except.pure]

end

/-! ## Updates of single cells -/

/-- Changing what is kept under a name changes no other name. -/
theorem node?_modifyCell (id : NodeId) (change : Cell → Cell) (y : NodeId) :
    (tree.modifyCell id change).node? y =
      if y = id then (tree.cells[y]?.map change).bind (·.node) else tree.node? y := by
  unfold node? modifyCell
  rw [Array.getElem?_modify]
  by_cases h : id = y
  · subst h
    rw [if_pos rfl, if_pos rfl]
  · rw [if_neg h, if_neg (Ne.symm h)]

/-- Changing what is kept under a name gives no names. -/
@[simp] theorem nextId_modifyCell (id : NodeId) (change : Cell → Cell) :
    (tree.modifyCell id change).nextId = tree.nextId := by
  simp [nextId, modifyCell]

/-- A changed node is found under its name, and every other name is as before. -/
theorem node?_update (id : NodeId) (change : Node → Node) (y : NodeId) :
    (tree.update id change).node? y =
      if y = id then (tree.node? y).map change else tree.node? y := by
  unfold update
  rw [node?_modifyCell]
  by_cases h : y = id
  · rw [if_pos h, if_pos h]
    unfold node?
    cases tree.cells[y]? <;> rfl
  · rw [if_neg h, if_neg h]

/-- Changing a node gives no names. -/
@[simp] theorem nextId_update (id : NodeId) (change : Node → Node) :
    (tree.update id change).nextId = tree.nextId :=
  tree.nextId_modifyCell id _

/-- Making a node keeps it under the next name, and leaves the other nodes as they are. -/
theorem node?_push (node : Node) (y : NodeId) :
    (tree.push node).node? y = if y = tree.nextId then some node else tree.node? y := by
  unfold node? push nextId
  rw [Array.getElem?_push]
  by_cases h : y = tree.cells.size
  · rw [if_pos h, if_pos h]
    rfl
  · rw [if_neg h, if_neg h]

/-- Making a node gives one name. -/
@[simp] theorem nextId_push (node : Node) : (tree.push node).nextId = tree.nextId + 1 := by
  simp [nextId, push]

/-! ## Marks -/

/-- Marking nodes leaves them as they are. -/
@[simp] theorem node?_markAll (ids : List NodeId) (y : NodeId) :
    (tree.markAll ids).node? y = tree.node? y := by
  unfold markAll
  induction ids generalizing tree with
  | nil => rfl
  | cons id ids ih =>
    rw [List.foldl_cons, ih, node?_modifyCell]
    by_cases h : y = id
    · rw [if_pos h]
      unfold node?
      cases tree.cells[y]? <;> rfl
    · rw [if_neg h]

/-- Marking nodes gives no names. -/
@[simp] theorem nextId_markAll (ids : List NodeId) : (tree.markAll ids).nextId = tree.nextId := by
  unfold markAll
  induction ids generalizing tree with
  | nil => rfl
  | cons id ids ih => rw [List.foldl_cons, ih, nextId_modifyCell]

/-- Marking a node and what is above it leaves all nodes as they are. -/
@[simp] theorem node?_mark (id y : NodeId) : (tree.mark id).node? y = tree.node? y :=
  tree.node?_markAll _ y

/-- Marking a node and what is above it gives no names. -/
@[simp] theorem nextId_mark (id : NodeId) : (tree.mark id).nextId = tree.nextId :=
  tree.nextId_markAll _

/-- Taking the marks away leaves all nodes as they are. -/
@[simp] theorem node?_unmark (y : NodeId) : tree.unmark.node? y = tree.node? y := by
  unfold unmark node?
  rw [Array.getElem?_map]
  cases tree.cells[y]? <;> rfl

/-! ## Moving and removing -/

/-- Taking a symbol out of its expression gives no names. -/
@[simp] theorem nextId_detach (id expression : NodeId) :
    (tree.detach id expression).nextId = tree.nextId := by
  simp [detach]

/-- Putting a symbol into an expression gives no names. -/
@[simp] theorem nextId_attach (anchor id expression : NodeId) :
    (tree.attach anchor id expression).nextId = tree.nextId := by
  simp [attach]

/-- Of removed nodes nothing is left, and all others stay. -/
theorem node?_killAll (ids : List NodeId) (y : NodeId) :
    (tree.killAll ids).node? y = if y ∈ ids then none else tree.node? y := by
  unfold killAll
  induction ids generalizing tree with
  | nil => rfl
  | cons id ids ih =>
    rw [List.foldl_cons, ih, node?_modifyCell]
    by_cases hid : y = id
    · subst hid
      cases tree.cells[y]? <;> simp
    · simp [hid]

/-- Killing nodes gives no names. -/
@[simp] theorem nextId_killAll (ids : List NodeId) : (tree.killAll ids).nextId = tree.nextId := by
  unfold killAll
  induction ids generalizing tree with
  | nil => rfl
  | cons id ids ih => rw [List.foldl_cons, ih, nextId_modifyCell]

end FormulaEditor.Tree
