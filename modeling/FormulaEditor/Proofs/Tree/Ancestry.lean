import FormulaEditor.Proofs.Tree.Lookup
import FormulaEditor.Tree.Walk
import Mathlib.Data.List.Nodup
import Mathlib.Data.List.Perm.Subperm
import Mathlib.Data.List.Range
import Mathlib.Logic.Relation

/-!
# Nodes above a node

`Tree.Inside` says that a node is another one or below it, as the reflexive and transitive closure
of the step from a node to its parent. A node is grounded if these steps end at a live node without
a parent. The walk of `Tree.ancestors` is bounded by the number of names, and the bound is never
met from a grounded node: such a walk passes no node twice (`Tree.Grounded.ancestors_eq`). So
`Tree.contains` decides `Tree.Inside` (`Tree.Grounded.contains_iff`).
-/

set_option autoImplicit false

namespace FormulaEditor.Tree

variable {tree : Tree}

/-- A node is another one or somewhere below it. -/
def Inside (tree : Tree) (id outer : NodeId) : Prop :=
  Relation.ReflTransGen (fun id parent => tree.parent? id = some parent) id outer

/-- The way up from a node ends, at a live node without a parent. -/
inductive Grounded (tree : Tree) : NodeId → Prop
  | orphan {id : NodeId} {node : Node} (live : tree.node? id = some node)
      (top : node.parent = none) : Grounded tree id
  | child {id parent : NodeId} {node : Node} (live : tree.node? id = some node)
      (step : node.parent = some parent) (up : Grounded tree parent) : Grounded tree id

/-- A node inside another one is that node, or its parent is inside it. -/
theorem inside_iff {id outer : NodeId} :
    tree.Inside id outer ↔ id = outer ∨ ∃ parent, tree.parent? id = some parent ∧
      tree.Inside parent outer := by
  constructor
  · intro h
    rcases Relation.ReflTransGen.cases_head h with rfl | ⟨parent, hparent, hup⟩
    · exact Or.inl rfl
    · exact Or.inr ⟨parent, hparent, hup⟩
  · rintro (rfl | ⟨parent, hparent, hup⟩)
    · exact Relation.ReflTransGen.refl
    · exact Relation.ReflTransGen.head hparent hup

/-- Every node is inside itself. -/
theorem Inside.refl (id : NodeId) : tree.Inside id id :=
  Relation.ReflTransGen.refl

/-- A node is inside everything in which its parent is. -/
theorem Inside.child {id parent outer : NodeId} (h : tree.parent? id = some parent)
    (up : tree.Inside parent outer) : tree.Inside id outer :=
  Relation.ReflTransGen.head h up

/-- A node is inside its parent. -/
theorem Inside.of_parent {id parent : NodeId} (h : tree.parent? id = some parent) :
    tree.Inside id parent :=
  Inside.child h (Inside.refl parent)

/-- What stands directly above a node stands above everything inside the node. -/
theorem Inside.parent {id outer parent : NodeId} (h : tree.Inside id outer)
    (up : tree.parent? outer = some parent) : tree.Inside id parent :=
  Relation.ReflTransGen.tail h up

/-- What is inside a node is inside everything in which the node is. -/
theorem Inside.trans {id middle outer : NodeId} (h : tree.Inside id middle)
    (h' : tree.Inside middle outer) : tree.Inside id outer :=
  Relation.ReflTransGen.trans h h'

/-- A node without a parent is inside itself only. -/
theorem Inside.eq_of_orphan {id outer : NodeId} (h : tree.Inside id outer)
    (orphan : tree.parent? id = none) : id = outer := by
  rcases inside_iff.mp h with rfl | ⟨parent, hparent, -⟩
  · rfl
  · rw [orphan] at hparent
    cases hparent

/-- Where a node is properly inside, its parent is. -/
theorem Inside.above {id parent outer : NodeId} (h : tree.Inside id outer) (hne : id ≠ outer)
    (hparent : tree.parent? id = some parent) : tree.Inside parent outer := by
  obtain heq | ⟨_, hparent', hup⟩ := inside_iff.mp h
  · exact absurd heq hne
  · rw [hparent] at hparent'
    cases hparent'
    exact hup

/-- Below a node without a parent there is a node exactly if its own parent is. -/
theorem inside_iff_parent {id parent outer : NodeId} (orphan : tree.parent? outer = none)
    (hparent : tree.parent? id = some parent) :
    tree.Inside id outer ↔ tree.Inside parent outer := by
  refine ⟨fun hinside => hinside.above ?_ hparent, Inside.child hparent⟩
  rintro rfl
  rw [orphan] at hparent
  cases hparent

/-! ## Grounded nodes -/

namespace Grounded

/-- A grounded node is live. -/
theorem isLive {id : NodeId} (h : tree.Grounded id) : tree.isLive id = true := by
  cases h with
  | orphan live _ => exact isLive_iff.mpr ⟨_, live⟩
  | child live _ _ => exact isLive_iff.mpr ⟨_, live⟩

/-- The parent of a grounded node is grounded. -/
theorem up {id parent : NodeId} (h : tree.Grounded id) (hparent : tree.parent? id = some parent) :
    tree.Grounded parent := by
  cases h with
  | orphan live top =>
    rw [parent?_of_node? live, top] at hparent
    cases hparent
  | child live step above =>
    rw [parent?_of_node? live, step] at hparent
    cases hparent
    exact above

/-- No step up from a grounded node leads back to it. -/
theorem acyclic {id parent : NodeId} (h : tree.Grounded id)
    (hparent : tree.parent? id = some parent) : ¬ tree.Inside parent id := by
  induction h generalizing parent with
  | orphan live top =>
    rw [parent?_of_node? live, top] at hparent
    cases hparent
  | @child id above node live step _ ih =>
    rw [parent?_of_node? live, step] at hparent
    cases hparent
    intro hback
    -- a way back from the parent would be a way from the parent to itself
    have hround : tree.parent? id = some above := by rw [parent?_of_node? live, step]
    rcases inside_iff.mp hback with rfl | ⟨grand, hgrand, hup⟩
    · exact ih hround Relation.ReflTransGen.refl
    · exact ih hgrand (hup.tail hround)

end Grounded

/-! ## The bounded walk -/

/-- There are no more different live nodes than names have been given. -/
theorem length_le_nextId {ids : List NodeId} (hnodup : ids.Nodup)
    (hlive : ∀ id ∈ ids, tree.isLive id = true) : ids.length ≤ tree.nextId := by
  have hsub : ids ⊆ List.range tree.nextId := by
    intro id hmem
    obtain ⟨node, hnode⟩ := isLive_iff.mp (hlive id hmem)
    exact List.mem_range.mpr (lt_nextId_of_node? hnode)
  have hlength := (List.subperm_of_subset hnodup hsub).length_le
  rwa [List.length_range] at hlength

/-- The bounded walk up passes only nodes which the first one is inside of. -/
theorem inside_of_mem_ancestorsWithin {fuel : Nat} {id outer : NodeId}
    (h : outer ∈ tree.ancestorsWithin fuel id) : tree.Inside id outer := by
  induction fuel generalizing id with
  | zero => simp [ancestorsWithin] at h
  | succ fuel ih =>
    rw [ancestorsWithin, List.mem_cons] at h
    rcases h with rfl | h
    · exact Inside.refl _
    · cases hparent : tree.parent? id with
      | none =>
        rw [hparent] at h
        cases h
      | some parent =>
        rw [hparent] at h
        exact Inside.child hparent (ih h)

namespace Grounded

/-- What is above a grounded node is grounded. -/
theorem of_inside {id outer : NodeId} (h : tree.Grounded id) (hinside : tree.Inside id outer) :
    tree.Grounded outer := by
  induction hinside with
  | refl => exact h
  | tail _ hstep ih => exact ih.up hstep

/-- The bounded walk up from a grounded node passes no node twice. -/
theorem nodup_ancestorsWithin {id : NodeId} (h : tree.Grounded id) (fuel : Nat) :
    (tree.ancestorsWithin fuel id).Nodup := by
  induction fuel generalizing id with
  | zero => exact List.nodup_nil
  | succ fuel ih =>
    rw [ancestorsWithin]
    cases hparent : tree.parent? id with
    | none => exact List.nodup_singleton id
    | some parent =>
      refine List.nodup_cons.mpr ⟨fun hmem => ?_, ih (h.up hparent)⟩
      exact h.acyclic hparent (inside_of_mem_ancestorsWithin hmem)

/-- The bounded walk up from a grounded node is no longer than there are names. -/
theorem length_ancestorsWithin_le {id : NodeId} (h : tree.Grounded id) (fuel : Nat) :
    (tree.ancestorsWithin fuel id).length ≤ tree.nextId := by
  refine length_le_nextId (h.nodup_ancestorsWithin fuel) fun outer hmem => ?_
  exact (h.of_inside (inside_of_mem_ancestorsWithin hmem)).isLive

end Grounded

/-- A bounded walk up which stays below its bound does not depend on it. -/
theorem ancestorsWithin_eq_of_lt {fuel more : Nat} {id : NodeId}
    (h : (tree.ancestorsWithin fuel id).length < fuel) (hle : fuel ≤ more) :
    tree.ancestorsWithin more id = tree.ancestorsWithin fuel id := by
  induction fuel generalizing id more with
  | zero => omega
  | succ fuel ih =>
    obtain ⟨more, rfl⟩ : ∃ m, more = m + 1 := ⟨more - 1, by omega⟩
    rw [ancestorsWithin] at h ⊢
    rw [ancestorsWithin]
    cases hparent : tree.parent? id with
    | none => rfl
    | some parent =>
      simp only [hparent, List.length_cons, Nat.add_lt_add_iff_right] at h
      simp only [List.cons.injEq, true_and]
      exact ih h (by omega)

namespace Grounded

/-- The nodes above a grounded node, the nearest first, are its parent and the nodes above that.
The bound of the walk is never met. -/
theorem ancestors_eq {id : NodeId} (h : tree.Grounded id) :
    tree.ancestors id = id :: match tree.parent? id with
      | none => []
      | some parent => tree.ancestors parent := by
  unfold ancestors
  rw [ancestorsWithin]
  cases hparent : tree.parent? id with
  | none => rfl
  | some parent =>
    have hlength : (tree.ancestorsWithin (tree.cells.size + 1) id).length ≤ tree.cells.size :=
      h.length_ancestorsWithin_le _
    rw [ancestorsWithin, hparent] at hlength
    simp only [List.length_cons] at hlength
    simp only [List.cons.injEq, true_and]
    exact (ancestorsWithin_eq_of_lt (by omega) (Nat.le_succ _)).symm

/-- The walk up from a grounded node passes all nodes which it is inside of. -/
theorem mem_ancestors_iff {id outer : NodeId} (h : tree.Grounded id) :
    outer ∈ tree.ancestors id ↔ tree.Inside id outer := by
  refine ⟨inside_of_mem_ancestorsWithin, fun hinside => ?_⟩
  induction hinside using Relation.ReflTransGen.head_induction_on with
  | refl =>
    rw [h.ancestors_eq]
    exact List.mem_cons_self
  | @head id parent hstep _ ih =>
    rw [h.ancestors_eq, hstep]
    exact List.mem_cons_of_mem _ (ih (h.up hstep))

/-- The search upwards from a grounded node finds the nodes which it is inside of. -/
theorem contains_iff {id outer : NodeId} (h : tree.Grounded id) :
    tree.contains outer id = true ↔ tree.Inside id outer := by
  unfold contains
  rw [List.contains_iff_mem]
  exact h.mem_ancestors_iff

/-- The way up from a node is one step longer than the way up from its parent. -/
theorem length_ancestors {id parent : NodeId} (h : tree.Grounded id)
    (hparent : tree.parent? id = some parent) :
    (tree.ancestors id).length = (tree.ancestors parent).length + 1 := by
  rw [h.ancestors_eq, hparent, List.length_cons]

/-- No way up from a grounded node is longer than there are names. -/
theorem length_ancestors_le {id : NodeId} (h : tree.Grounded id) :
    (tree.ancestors id).length ≤ tree.nextId :=
  h.length_ancestorsWithin_le _

end Grounded

end FormulaEditor.Tree
