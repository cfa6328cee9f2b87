import FormulaEditor.Proofs.Checked
import FormulaEditor.Proofs.Tree.Order

/-!
# Visiting nodes with a stack

The nodes inside a node can also be visited in a loop, with a stack of the nodes which wait for
their visit. When a node is visited, the nodes directly below it are put on the stack, the last one
first, so that the first one is on top. What is still to be visited are then the nodes which the
walk downwards finds from the nodes on the stack, from the top down
(`Tree.WellFormed.visitWithin_eq`). So the visits are made in the order of this walk, and there are
no more of them than names (`Tree.WellFormed.visit_eq`).
-/

set_option autoImplicit false

namespace FormulaEditor.Tree

/-- Visits the node on top of a stack, puts the nodes directly below it on the stack, and goes on
until the stack is empty, for as many rounds as are granted. -/
def visitWithin (tree : Tree) : Nat → List NodeId → List NodeId → Checked (List NodeId)
  | _, visited, [] => .ok visited
  | 0, _, _ :: _ => .error .endless
  | rounds + 1, visited, id :: waiting => do
    let below := (← Checked.answer (tree.node id)).below
    visitWithin tree rounds (visited ++ [id])
      (below.reverse.foldl (fun stack child => child :: stack) waiting)

/-- Visits a node and everything below it. -/
def visit (tree : Tree) (id : NodeId) : Checked (List NodeId) :=
  tree.visitWithin (tree.cells.size + 1) [] [id]

variable {tree : Tree} {id : NodeId}

/-- Nodes which are put on a stack the last one first are on top of it in their order. -/
theorem foldl_reverse_cons (below waiting : List NodeId) :
    below.reverse.foldl (fun stack child => child :: stack) waiting = below ++ waiting := by
  rw [List.foldl_reverse, List.foldr_cons_eq_append, List.map_id']

namespace WellFormed

/-- There are no more nodes inside a node than names have been given. -/
theorem length_inner_le (h : tree.WellFormed) (hlive : tree.isLive id = true) :
    (tree.inner id).length ≤ tree.nextId :=
  length_le_nextId (h.nodup_inner hlive) fun _ hmem => ((h.mem_inner_iff hlive).mp hmem).1

/-- From a stack of live nodes everything inside them is visited, one after the other from the top
of the stack, if as many rounds are granted as there are nodes to visit. -/
theorem visitWithin_eq (h : tree.WellFormed) {rounds : Nat} {visited waiting : List NodeId}
    (hlive : ∀ id ∈ waiting, tree.isLive id = true)
    (hrounds : (waiting.flatMap tree.inner).length ≤ rounds) :
    tree.visitWithin rounds visited waiting = .ok (visited ++ waiting.flatMap tree.inner) := by
  induction rounds generalizing visited waiting with
  | zero =>
    cases waiting with
    | nil => rw [visitWithin, List.flatMap_nil, List.append_nil]
    | cons id waiting =>
      obtain ⟨node, hnode⟩ := isLive_iff.mp (hlive id List.mem_cons_self)
      rw [List.flatMap_cons, h.inner_eq hnode, List.cons_append, List.length_cons] at hrounds
      omega
  | succ rounds ih =>
    cases waiting with
    | nil => rw [visitWithin, List.flatMap_nil, List.append_nil]
    | cons id waiting =>
      obtain ⟨hid, hwaiting⟩ := List.forall_mem_cons.mp hlive
      obtain ⟨node, hnode⟩ := isLive_iff.mp hid
      -- below the visited node there is one node less than from it
      have hsplit : (id :: waiting).flatMap tree.inner =
          id :: (node.below ++ waiting).flatMap tree.inner := by
        rw [List.flatMap_cons, h.inner_eq hnode, List.flatMap_append]
        rfl
      have hbelow : ∀ child ∈ node.below ++ waiting, tree.isLive child = true := by
        intro child hmem
        obtain hchild | hchild := List.mem_append.mp hmem
        · obtain ⟨kind, hchild⟩ := node?_of_parent? ((h.mem_below_iff hnode).mp hchild)
          exact isLive_iff.mpr ⟨_, hchild⟩
        · exact hwaiting child hchild
      rw [hsplit, List.length_cons] at hrounds
      have hrest := @ih (visited ++ [id]) _ hbelow (Nat.le_of_succ_le_succ hrounds)
      rw [visitWithin, Tree.node, hnode]
      show tree.visitWithin rounds (visited ++ [id])
        (node.below.reverse.foldl (fun stack child => child :: stack) waiting) = _
      rw [foldl_reverse_cons, hrest, hsplit, List.append_assoc]
      rfl

/-- Visiting a node and everything below it gives what the walk downwards gives. -/
theorem visit_eq (h : tree.WellFormed) (id : NodeId) :
    tree.visit id = Checked.answer (tree.descendants id) := by
  cases hnode : tree.node? id with
  | none =>
    rw [visit, visitWithin, descendants, descendantsWithin, Tree.node, hnode]
    rfl
  | some node =>
    have hlive := isLive_iff.mpr ⟨node, hnode⟩
    have hvisit := @visitWithin_eq tree h (tree.cells.size + 1) [] [id]
      (List.forall_mem_singleton.mpr hlive)
    rw [List.flatMap_singleton, List.nil_append] at hvisit
    rw [visit, hvisit (Nat.le_succ_of_le (h.length_inner_le hlive)), h.descendants_eq_inner hlive]
    rfl

end WellFormed

end FormulaEditor.Tree
