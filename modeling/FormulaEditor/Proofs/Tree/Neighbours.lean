import FormulaEditor.Proofs.Tree.Connected

/-!
# Ends and neighbours

In a well-formed tree every expression has a first and a last symbol, and a symbol which stands in
an expression divides its list into what is before and what is after it
(`Tree.WellFormed.exists_split`), which tells its neighbours. In a whole tree every symbol stands in
an expression.
-/

set_option autoImplicit false

namespace FormulaEditor.Tree

variable {tree : Tree} {id expression : NodeId} {symbol : Symbol} {owner : Option NodeId}
  {items front back : List NodeId}

/-- Whether a name denotes a symbol. -/
def IsSymbol (tree : Tree) (id : NodeId) : Prop :=
  ∃ symbol, tree.symbol id = .ok symbol

/-- A node which is a symbol is one. -/
theorem isSymbol_of_node? {parent : Option NodeId}
    (h : tree.node? id = some ⟨parent, .symbol symbol⟩) : tree.IsSymbol id :=
  ⟨symbol, symbol_of_node? h⟩

/-- A symbol is live. -/
theorem IsSymbol.isLive (h : tree.IsSymbol id) : tree.isLive id = true := by
  obtain ⟨symbol, hsymbol⟩ := h
  obtain ⟨parent, hid⟩ := symbol_eq_ok_iff.mp hsymbol
  exact isLive_iff.mpr ⟨_, hid⟩

/-- The parent of a live node can be asked for. -/
theorem parent_of_node? {node : Node} (h : tree.node? id = some node) :
    tree.parent id = .ok node.parent := by
  rw [parent, Tree.node, h]
  rfl

/-- An expression ends with the last symbol of its list. -/
theorem last_eq_ok_iff :
    tree.last expression = .ok id ↔
      ∃ items, tree.items expression = .ok items ∧ items.getLast? = some id := by
  rw [last]
  cases tree.items expression with
  | error e =>
    constructor
    · rintro ⟨⟩
    · rintro ⟨_, ⟨⟩, _⟩
  | ok items =>
    simp only [bind, Except.bind, Except.ok.injEq, exists_eq_left']
    cases items.getLast? <;> simp [pure, Except.pure]

namespace WellFormed

/-- Every expression begins with a start. -/
theorem exists_first (h : tree.WellFormed)
    (hnode : tree.node? expression = some ⟨owner, .expression items⟩) :
    ∃ start, tree.first expression = .ok start ∧
      tree.node? start = some ⟨some expression, .symbol .start⟩ := by
  obtain ⟨start, others, rfl, hstart, -⟩ := (h.lists hnode).start
  refine ⟨start, ?_, hstart⟩
  rw [first, items_of_node? hnode]
  rfl

/-- Every expression ends with a symbol. -/
theorem exists_last (h : tree.WellFormed)
    (hnode : tree.node? expression = some ⟨owner, .expression items⟩) :
    ∃ id, tree.last expression = .ok id ∧ tree.IsSymbol id := by
  obtain ⟨start, others, rfl, -, -⟩ := (h.lists hnode).start
  have hlast := List.getLast?_eq_some_getLast (List.cons_ne_nil start others)
  obtain ⟨symbol, hid⟩ := h.node?_of_mem hnode (List.getLast_mem (List.cons_ne_nil start others))
  exact ⟨_, last_eq_ok_iff.mpr ⟨_, items_of_node? hnode, hlast⟩, isSymbol_of_node? hid⟩

/-- The place of a symbol is as far from the start as there are symbols before it. -/
theorem position_of_split (h : tree.WellFormed)
    (hid : tree.node? id = some ⟨some expression, .symbol symbol⟩)
    (hnode : tree.node? expression = some ⟨owner, .expression (front ++ id :: back)⟩) :
    tree.position id = .ok (expression, front.length) := by
  refine position_eq_ok_iff.mpr ⟨_, owner, _, hid, hnode,
    List.idxOf?_eq_some_iff.mpr ⟨by simp, by simp, fun j hj => ?_⟩⟩
  rw [List.getElem_append_left hj]
  rintro rfl
  exact h.notMem_of_split hnode (List.getElem_mem hj)

/-- A symbol with a parent divides the list of the parent into what is before and what is after it.
-/
theorem exists_split (h : tree.WellFormed)
    (hid : tree.node? id = some ⟨some expression, .symbol symbol⟩) :
    ∃ owner front back, tree.node? expression = some ⟨owner, .expression (front ++ id :: back)⟩ ∧
      tree.position id = .ok (expression, front.length) := by
  obtain ⟨owner, items, hexpression, hmem⟩ := h.listed hid
  obtain ⟨front, back, rfl, -⟩ := List.eq_append_cons_of_mem hmem
  exact ⟨owner, front, back, hexpression, h.position_of_split hid hexpression⟩

end WellFormed

/-- The neighbour to the left of a symbol is the last one before it, if there is one. -/
theorem leftNeighbour_of_split
    (hnode : tree.node? expression = some ⟨owner, .expression (front ++ id :: back)⟩)
    (hposition : tree.position id = .ok (expression, front.length)) :
    tree.leftNeighbour id = .ok front.getLast? := by
  rw [leftNeighbour, hposition]
  simp only [bind, Except.bind, pure, Except.pure, items_of_node? hnode, Except.ok.injEq]
  cases front with
  | nil => rfl
  | cons item front =>
    have hlast : (item :: front).length - 1 < (item :: front).length := Nat.lt_succ_self _
    rw [if_neg (List.length_pos_of_mem List.mem_cons_self).ne', List.getElem?_append_left hlast,
      List.getLast?_eq_getElem?]

/-- The neighbour to the right of a symbol is the first one behind it, if there is one. -/
theorem rightNeighbour_of_split
    (hnode : tree.node? expression = some ⟨owner, .expression (front ++ id :: back)⟩)
    (hposition : tree.position id = .ok (expression, front.length)) :
    tree.rightNeighbour id = .ok back.head? := by
  rw [rightNeighbour, hposition]
  simp only [bind, Except.bind, pure, Except.pure, items_of_node? hnode, Except.ok.injEq]
  rw [List.getElem?_append_right (Nat.le_succ _), Nat.succ_sub (Nat.le_refl _), Nat.sub_self,
    List.head?_eq_getElem?]
  rfl

namespace WellFormed

/-- What has a place is a symbol of the expression in which it has it. -/
theorem node?_of_position (h : tree.WellFormed) {index : Nat}
    (hposition : tree.position id = .ok (expression, index)) :
    ∃ symbol, tree.node? id = some ⟨some expression, .symbol symbol⟩ := by
  obtain ⟨owner, items, hexpression, hmem⟩ := exists_items_of_position hposition
  exact h.node?_of_mem hexpression hmem

/-- A symbol has a left neighbour in its expression, unless it is a start. -/
theorem exists_leftNeighbour (h : tree.WellFormed)
    (hid : tree.node? id = some ⟨some expression, .symbol symbol⟩) :
    ∃ answer, tree.leftNeighbour id = .ok answer ∧ (answer = none ↔ symbol = .start) ∧
      ∀ previous ∈ answer, previous ≠ id ∧
        ∃ s, tree.node? previous = some ⟨some expression, .symbol s⟩ := by
  obtain ⟨owner, front, back, hexpression, hposition⟩ := h.exists_split hid
  refine ⟨front.getLast?, leftNeighbour_of_split hexpression hposition, ?_, ?_⟩
  · obtain ⟨-, first, others, hitems, hfirst, hothers⟩ := h.lists hexpression
    rw [List.getLast?_eq_none_iff]
    cases front with
    | nil =>
      cases hitems
      rw [hid] at hfirst
      cases hfirst
      exact ⟨fun _ => rfl, fun _ => rfl⟩
    | cons item front =>
      cases hitems
      obtain ⟨s, hs, hnode⟩ := hothers id (by simp)
      rw [hid] at hnode
      cases hnode
      simp [hs]
  · intro previous hprevious
    have hmem := List.mem_of_getLast? hprevious
    refine ⟨fun heq => ?_, h.node?_of_mem hexpression (List.mem_append_left _ hmem)⟩
    exact h.notMem_of_split hexpression (heq ▸ hmem)

/-- A symbol which stands in an expression can be asked for its neighbour to the right, which is a
symbol. -/
theorem exists_rightNeighbour (h : tree.WellFormed)
    (hid : tree.node? id = some ⟨some expression, .symbol symbol⟩) :
    ∃ answer, tree.rightNeighbour id = .ok answer ∧ ∀ next ∈ answer, tree.IsSymbol next := by
  obtain ⟨owner, front, back, hexpression, hposition⟩ := h.exists_split hid
  refine ⟨back.head?, rightNeighbour_of_split hexpression hposition, fun next hnext => ?_⟩
  have hmem : next ∈ front ++ id :: back := by simp [List.mem_of_head? hnext]
  obtain ⟨s, hs⟩ := h.node?_of_mem hexpression hmem
  exact isSymbol_of_node? hs

end WellFormed

namespace Whole

/-- In a whole tree every symbol stands in an expression. -/
theorem exists_parent (h : tree.Whole) (hid : tree.symbol id = .ok symbol) :
    ∃ expression, tree.node? id = some ⟨some expression, .symbol symbol⟩ := by
  obtain ⟨parent, hnode⟩ := symbol_eq_ok_iff.mp hid
  obtain ⟨expression, rfl, -⟩ :=
    h.wellFormed.exists_parent_of_inside hnode (h.connected id (isLive_iff.mpr ⟨_, hnode⟩))
  exact ⟨expression, hnode⟩

/-- In a whole tree what can be reached from the root is what is live. -/
theorem isReachable_iff (h : tree.Whole) : tree.isReachable id = true ↔ tree.isLive id = true := by
  rw [isReachable, Bool.and_eq_true, h.wellFormed.contains_iff]
  exact and_iff_left_of_imp (h.connected id)

end Whole

end FormulaEditor.Tree
