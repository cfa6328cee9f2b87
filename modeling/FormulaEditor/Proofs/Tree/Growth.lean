import FormulaEditor.Proofs.Tree.WellFormed

/-!
# New symbols

A new symbol stands nowhere, and its slots hold nothing but a start. All other nodes are as before
(`Tree.node?_pushSymbol_iff`), so a tree stays well-formed when a symbol is made.
-/

set_option autoImplicit false

namespace FormulaEditor.Tree

variable {tree : Tree} {stroke : Stroke}

/-- When a node has been made there is this node, and every node which there was. -/
theorem node?_push_iff (node found : Node) (y : NodeId) :
    (tree.push node).node? y = some found ↔
      tree.node? y = some found ∨ y = tree.nextId ∧ found = node := by
  rw [node?_push]
  by_cases h : y = tree.nextId
  · rw [if_pos h, h, tree.node?_of_nextId_le (Nat.le_refl _)]
    simp [eq_comm]
  · simp [h]

/-- The slots of a new symbol have names after its own, and leave a name for the start of each. -/
theorem slots_symbol (n : NodeId) (stroke : Stroke) :
    (stroke.symbol n).slots.Nodup ∧ (∀ slot ∈ (stroke.symbol n).slots, n < slot) ∧
      stroke.symbol n ≠ .start := by
  cases stroke <;> simp [Stroke.symbol, Symbol.slots]

/-- A tree with a new symbol has this symbol, the slots of the symbol and their starts, and the
nodes which it had before. -/
theorem node?_pushSymbol_iff (found : Node) (y : NodeId) :
    (tree.pushSymbol stroke).node? y = some found ↔ tree.node? y = some found ∨
      (y = tree.nextId ∧ found = ⟨none, .symbol (stroke.symbol tree.nextId)⟩) ∨
      ∃ slot ∈ (stroke.symbol tree.nextId).slots,
        (y = slot ∧ found = ⟨some tree.nextId, .expression [slot + 1]⟩) ∨
          (y = slot + 1 ∧ found = ⟨some slot, .symbol .start⟩) := by
  cases stroke <;>
    simp [pushSymbol, pushExpression, Stroke.symbol, Symbol.slots, node?_push_iff, or_assoc]

/-- When a symbol has been made every node is what it was. -/
theorem node?_pushSymbol_of_node? {y : NodeId} {node : Node} (h : tree.node? y = some node) :
    (tree.pushSymbol stroke).node? y = some node :=
  (node?_pushSymbol_iff node y).mpr (Or.inl h)

/-- A new symbol stands nowhere, under the name which was the next one. -/
theorem node?_pushSymbol_self : (tree.pushSymbol stroke).node? tree.nextId =
    some ⟨none, .symbol (stroke.symbol tree.nextId)⟩ :=
  (node?_pushSymbol_iff _ _).mpr (Or.inr (Or.inl ⟨rfl, rfl⟩))

/-- A slot of the new symbol holds nothing but a start. -/
theorem node?_pushSymbol_slot {slot : NodeId} (h : slot ∈ (stroke.symbol tree.nextId).slots) :
    (tree.pushSymbol stroke).node? slot = some ⟨some tree.nextId, .expression [slot + 1]⟩ ∧
      (tree.pushSymbol stroke).node? (slot + 1) = some ⟨some slot, .symbol .start⟩ :=
  ⟨(node?_pushSymbol_iff _ _).mpr (Or.inr (Or.inr ⟨slot, h, Or.inl ⟨rfl, rfl⟩⟩)),
    (node?_pushSymbol_iff _ _).mpr (Or.inr (Or.inr ⟨slot, h, Or.inr ⟨rfl, rfl⟩⟩))⟩

/-- A way up which ends still ends when a symbol has been made. -/
theorem Grounded.pushSymbol {y : NodeId} (h : tree.Grounded y) :
    (tree.pushSymbol stroke).Grounded y := by
  induction h with
  | orphan live top => exact .orphan (node?_pushSymbol_of_node? live) top
  | child live step _ ih => exact .child (node?_pushSymbol_of_node? live) step ih

/-- Making a symbol keeps a tree well-formed. -/
theorem WellFormed.pushSymbol (h : tree.WellFormed) (stroke : Stroke) :
    (tree.pushSymbol stroke).WellFormed := by
  obtain ⟨hnodup, hlater, -⟩ := slots_symbol tree.nextId stroke
  have hground : (tree.pushSymbol stroke).Grounded tree.nextId :=
    .orphan node?_pushSymbol_self rfl
  have hslot : ∀ slot ∈ (stroke.symbol tree.nextId).slots,
      (tree.pushSymbol stroke).Grounded slot := fun slot hslot =>
    .child (node?_pushSymbol_slot hslot).1 rfl hground
  -- a node is an old one, or the new symbol, or one of its slots, or the start of one
  constructor
  case root =>
    obtain ⟨items, hroot⟩ := h.root
    exact ⟨items, node?_pushSymbol_of_node? hroot⟩
  case lists =>
    intro expression owner items hnode
    rcases (node?_pushSymbol_iff _ _).mp hnode with
      hold | ⟨-, ⟨⟩⟩ | ⟨slot, hmem, ⟨rfl, hnew⟩ | ⟨-, ⟨⟩⟩⟩
    · obtain ⟨nodup, first, others, rfl, hfirst, hothers⟩ := h.lists hold
      refine ⟨nodup, first, others, rfl, node?_pushSymbol_of_node? hfirst, fun id hid => ?_⟩
      obtain ⟨symbol, hsymbol, hold'⟩ := hothers id hid
      exact ⟨symbol, hsymbol, node?_pushSymbol_of_node? hold'⟩
    · cases hnew
      exact ⟨List.nodup_singleton _, _, [], rfl, (node?_pushSymbol_slot hmem).2, nofun⟩
  case listed =>
    intro id expression symbol hnode
    rcases (node?_pushSymbol_iff _ _).mp hnode with
      hold | ⟨-, ⟨⟩⟩ | ⟨slot, hmem, ⟨-, ⟨⟩⟩ | ⟨rfl, hnew⟩⟩
    · obtain ⟨owner, items, hold', hid⟩ := h.listed hold
      exact ⟨owner, items, node?_pushSymbol_of_node? hold', hid⟩
    · cases hnew
      exact ⟨_, _, (node?_pushSymbol_slot hmem).1, List.mem_singleton_self _⟩
  case slots =>
    intro id parent symbol hnode
    rcases (node?_pushSymbol_iff _ _).mp hnode with
      hold | ⟨rfl, hnew⟩ | ⟨slot, hmem, ⟨-, ⟨⟩⟩ | ⟨-, hnew⟩⟩
    · obtain ⟨nodup, hslots⟩ := h.slots hold
      refine ⟨nodup, fun slot hslot => ?_⟩
      obtain ⟨items, hold'⟩ := hslots slot hslot
      exact ⟨items, node?_pushSymbol_of_node? hold'⟩
    · cases hnew
      exact ⟨hnodup, fun slot hslot => ⟨_, (node?_pushSymbol_slot hslot).1⟩⟩
    · cases hnew
      exact ⟨List.nodup_nil, nofun⟩
  case owned =>
    intro expression owner items hnode hroot
    rcases (node?_pushSymbol_iff _ _).mp hnode with
      hold | ⟨-, ⟨⟩⟩ | ⟨slot, hmem, ⟨rfl, hnew⟩ | ⟨-, ⟨⟩⟩⟩
    · obtain ⟨id, parent, symbol, rfl, hold', hmem⟩ := h.owned hold hroot
      exact ⟨id, parent, symbol, rfl, node?_pushSymbol_of_node? hold', hmem⟩
    · cases hnew
      exact ⟨_, _, _, rfl, node?_pushSymbol_self, hmem⟩
  case grounded =>
    intro id hlive
    obtain ⟨node, hnode⟩ := isLive_iff.mp hlive
    rcases (node?_pushSymbol_iff _ _).mp hnode with
      hold | ⟨rfl, -⟩ | ⟨slot, hmem, ⟨rfl, -⟩ | ⟨rfl, -⟩⟩
    · exact (h.grounded (isLive_iff.mpr ⟨node, hold⟩)).pushSymbol
    · exact hground
    · exact hslot _ hmem
    · exact .child (node?_pushSymbol_slot hmem).2 rfl (hslot slot hmem)

end FormulaEditor.Tree
