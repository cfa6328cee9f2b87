import FormulaEditor.Proofs.Tree.Growth
import FormulaEditor.Proofs.Tree.Removal

/-!
# Trees without loose nodes

A tree is connected if every live node is inside the root (`Tree.Connected`). A new symbol is loose
until it is put in (`Tree.ConnectedBut`). Moves and deletions leave nothing loose. A well-formed and
connected tree is whole (`Tree.Whole`).
-/

set_option autoImplicit false

namespace FormulaEditor.Tree

variable {tree other : Tree} {id anchor expression : NodeId}

/-- Every live node is inside the root. -/
def Connected (tree : Tree) : Prop :=
  ∀ y, tree.isLive y = true → tree.Inside y root

/-- Every live node is inside the root or inside one given symbol. -/
def ConnectedBut (tree : Tree) (id : NodeId) : Prop :=
  ∀ y, tree.isLive y = true → tree.Inside y root ∨ tree.Inside y id

/-- A tree in which everything fits together and nothing is loose. -/
structure Whole (tree : Tree) : Prop where
  wellFormed : tree.WellFormed
  connected : tree.Connected

/-- In a connected tree nothing is outside of the root, so nothing has to be in a given symbol. -/
theorem Connected.connectedBut (h : tree.Connected) (id : NodeId) : tree.ConnectedBut id :=
  fun y hy => Or.inl (h y hy)

/-- Whether a tree is connected depends only on its nodes. -/
theorem connected_congr (same : ∀ id, other.node? id = tree.node? id) (h : tree.Connected) :
    other.Connected := by
  have hparent : ∀ id, other.parent? id = tree.parent? id := fun id => by
    unfold parent?
    rw [same]
  intro y hy
  rw [isLive, same] at hy
  have hinside := h y hy
  unfold Inside at hinside ⊢
  simpa only [hparent] using hinside

/-- The empty tree is connected. -/
theorem connected_empty : empty.Connected := by
  have hstart : empty.parent? 1 = some root := rfl
  intro y hy
  match y with
  | 0 => exact Inside.refl _
  | 1 => exact Inside.of_parent hstart
  | y + 2 => cases hy

/-! ## New symbols -/

/-- What is inside a node is inside it still when a symbol has been made. -/
theorem Inside.pushSymbol {stroke : Stroke} {y outer : NodeId} (h : tree.Inside y outer) :
    (tree.pushSymbol stroke).Inside y outer := by
  induction h using Relation.ReflTransGen.head_induction_on with
  | refl => exact Inside.refl _
  | head hstep _ ih =>
    obtain ⟨kind, hnode⟩ := node?_of_parent? hstep
    exact Inside.child (parent?_of_node? (node?_pushSymbol_of_node? hnode)) ih

/-- What a new symbol brings with it is inside the symbol. -/
theorem Connected.pushSymbol (h : tree.Connected) (stroke : Stroke) :
    (tree.pushSymbol stroke).ConnectedBut tree.nextId := by
  intro y hlive
  obtain ⟨node, hnode⟩ := isLive_iff.mp hlive
  rcases (node?_pushSymbol_iff _ _).mp hnode with
    hold | ⟨rfl, -⟩ | ⟨slot, hmem, ⟨rfl, -⟩ | ⟨rfl, -⟩⟩
  · exact Or.inl (h y (isLive_iff.mpr ⟨node, hold⟩)).pushSymbol
  · exact Or.inr (Inside.refl _)
  · have hslot := parent?_of_node? (node?_pushSymbol_slot hmem).1
    exact Or.inr (Inside.of_parent hslot)
  · have hslot := parent?_of_node? (node?_pushSymbol_slot hmem).1
    have hstart := parent?_of_node? (node?_pushSymbol_slot hmem).2
    exact Or.inr (Inside.child hstart (Inside.of_parent hslot))

/-! ## Moves and deletions -/

/-- A move of the only symbol which may be loose, to a place inside the root, leaves nothing loose.
-/
theorem ConnectedBut.moveAfter (h : tree.WellFormed) (hbut : tree.ConnectedBut id)
    (hdest : tree.destination anchor id = .ok expression) :
    (tree.moveAfter anchor id expression).Connected := by
  obtain ⟨hmoved, hparent, houtside⟩ := h.moved_moveAfter hdest
  obtain ⟨-, -, -, index, hposition⟩ := destination_eq_ok_iff.mp hdest
  obtain ⟨owner, items, hexpression, -⟩ := exists_items_of_position hposition
  have hlanding : (tree.moveAfter anchor id expression).Inside expression root := by
    rcases hbut expression (isLive_iff.mpr ⟨_, hexpression⟩) with hroot | hloose
    · rcases hmoved.inside_or hroot with hroot | hloose
      · exact hroot
      · exact absurd (hmoved.inside_iff.mp hloose) houtside
    · exact absurd hloose houtside
  have hid : (tree.moveAfter anchor id expression).Inside id root := Inside.child hparent hlanding
  intro y hlive
  rcases hbut y (hmoved.isLive_iff.mp hlive) with hroot | hloose
  · rcases hmoved.inside_or hroot with hroot | hloose
    · exact hroot
    · exact hloose.trans hid
  · exact (hmoved.inside_iff.mpr hloose).trans hid

/-- What is not inside a deleted symbol is inside the same nodes as before. -/
theorem Pruned.inside (h : Pruned tree other id) {y outer : NodeId} (hinside : tree.Inside y outer)
    (hout : ¬ tree.Inside y id) : other.Inside y outer := by
  induction hinside using Relation.ReflTransGen.head_induction_on with
  | refl => exact Inside.refl _
  | @head y parent hstep _ ih =>
    obtain ⟨kind, hnode⟩ := node?_of_parent? hstep
    have hstep' := parent?_of_node? ((h y _).mpr ⟨hnode, hout⟩)
    exact Inside.child hstep' (ih fun hup => hout (Inside.child hstep hup))

/-- A deletion leaves nothing loose. -/
theorem Connected.delete (h : tree.WellFormed) (hconnected : tree.Connected) {dead : List NodeId}
    (hdel : tree.deletion id = .ok (expression, dead)) :
    ((tree.detach id expression).killAll dead).Connected := by
  obtain ⟨symbol, owner, items, -, hid, hexpression, hpruned⟩ := h.pruned_of_deletion hdel
  have hview := relisting_detach hid hexpression
  intro y hlive
  obtain ⟨node, hnode⟩ := isLive_iff.mp hlive
  obtain ⟨hnode, hout⟩ := (hpruned y node).mp hnode
  have hlive' : tree.isLive y = true := by
    rw [← hview.isLive_eq]
    exact isLive_iff.mpr ⟨node, hnode⟩
  rcases hview.toMoved.inside_or (hconnected y hlive') with hroot | hloose
  · exact hpruned.inside hroot hout
  · exact absurd hloose hout

end FormulaEditor.Tree
