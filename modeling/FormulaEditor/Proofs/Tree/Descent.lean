import FormulaEditor.Proofs.Tree.WellFormed
import Mathlib.Tactic.Choose

/-!
# Nodes below a node

The walk downwards from a live node of a well-formed tree never fails, and passes exactly the live
nodes which are inside the node (`Tree.WellFormed.descendants_eq`).
-/

set_option autoImplicit false

namespace FormulaEditor.Tree

variable {tree : Tree}

/-- Questions which all have an answer are answered one by one. -/
theorem mapM_eq_ok {α β ε : Type} {question : α → Except ε β} {answer : α → β} {list : List α}
    (h : ∀ a ∈ list, question a = .ok (answer a)) :
    list.mapM question = .ok (list.map answer) := by
  induction list with
  | nil => rfl
  | cons a list ih =>
    rw [List.mapM_cons, h a List.mem_cons_self, ih fun b hb => h b (List.mem_cons_of_mem _ hb)]
    rfl

/-- Questions which all have an answer have a list of answers. -/
theorem exists_mapM_eq_ok {α β ε : Type} {question : α → Except ε β} {list : List α}
    (h : ∀ a ∈ list, ∃ b, question a = .ok b) : ∃ answers, list.mapM question = .ok answers := by
  induction list with
  | nil => exact ⟨[], rfl⟩
  | cons a list ih =>
    obtain ⟨b, hb⟩ := h a List.mem_cons_self
    obtain ⟨answers, hanswers⟩ := ih fun other hother => h other (List.mem_cons_of_mem _ hother)
    refine ⟨b :: answers, ?_⟩
    rw [List.mapM_cons, hb, hanswers]
    rfl

/-- Questions which have the same answers one by one have the same list of answers. -/
theorem mapM_congr {α β ε : Type} {question other : α → Except ε β} {list : List α}
    (h : ∀ a ∈ list, question a = other a) : list.mapM question = list.mapM other := by
  induction list with
  | nil => rfl
  | cons a list ih =>
    rw [List.mapM_cons, List.mapM_cons, h a List.mem_cons_self,
      ih fun b hb => h b (List.mem_cons_of_mem _ hb)]

/-- A bounded walk up gets to a node with one step more from a child of that node. -/
theorem mem_ancestorsWithin_succ {fuel : Nat} {id outer : NodeId} :
    outer ∈ tree.ancestorsWithin (fuel + 1) id ↔ id = outer ∨
      ∃ child, tree.parent? child = some outer ∧ child ∈ tree.ancestorsWithin fuel id := by
  induction fuel generalizing id with
  | zero =>
    have hwalk : tree.ancestorsWithin (0 + 1) id = [id] := by
      unfold ancestorsWithin
      cases tree.parent? id <;> rfl
    rw [hwalk]
    simp [ancestorsWithin, eq_comm]
  | succ fuel ih =>
    rw [ancestorsWithin, List.mem_cons]
    cases hparent : tree.parent? id with
    | none =>
      have hwalk : tree.ancestorsWithin (fuel + 1) id = [id] := by rw [ancestorsWithin, hparent]
      rw [hwalk]
      constructor
      · rintro (rfl | h)
        · exact Or.inl rfl
        · cases h
      · rintro (rfl | ⟨child, hchild, hmem⟩)
        · exact Or.inl rfl
        · rw [List.mem_singleton.mp hmem, hparent] at hchild
          cases hchild
    | some parent =>
      have hwalk : tree.ancestorsWithin (fuel + 1) id = id :: tree.ancestorsWithin fuel parent := by
        rw [ancestorsWithin, hparent]
      simp only [hwalk]
      rw [ih]
      constructor
      · rintro (rfl | rfl | ⟨child, hchild, hmem⟩)
        · exact Or.inl rfl
        · exact Or.inr ⟨id, hparent, List.mem_cons_self⟩
        · exact Or.inr ⟨child, hchild, List.mem_cons_of_mem _ hmem⟩
      · rintro (rfl | ⟨child, hchild, hmem⟩)
        · exact Or.inl rfl
        · rcases List.mem_cons.mp hmem with rfl | hmem
          · rw [hparent] at hchild
            exact Or.inr (Or.inl (Option.some.inj hchild))
          · exact Or.inr (Or.inr ⟨child, hchild, hmem⟩)

namespace WellFormed

/-- The bounded walk down passes the live nodes from which the bounded walk up passes its first
node. -/
theorem descendantsWithin_eq (h : tree.WellFormed) (fuel : Nat) {id : NodeId} {node : Node}
    (hnode : tree.node? id = some node) :
    ∃ ids, tree.descendantsWithin fuel id = .ok ids ∧
      ∀ y, y ∈ ids ↔ tree.isLive y = true ∧ id ∈ tree.ancestorsWithin fuel y := by
  induction fuel generalizing id node with
  | zero => exact ⟨[], rfl, by simp [ancestorsWithin]⟩
  | succ fuel ih =>
    have hchildren : ∀ child ∈ node.below, ∃ ids, tree.descendantsWithin fuel child = .ok ids ∧
        ∀ y, y ∈ ids ↔ tree.isLive y = true ∧ child ∈ tree.ancestorsWithin fuel y := by
      intro child hmem
      obtain ⟨kind, hchild⟩ := node?_of_parent? ((h.mem_below_iff hnode).mp hmem)
      exact ih hchild
    choose! below hbelow hmem using hchildren
    refine ⟨id :: (node.below.map below).flatten, ?_, fun y => ?_⟩
    · rw [descendantsWithin, Tree.node, hnode]
      show (do return id :: (← node.below.mapM (tree.descendantsWithin fuel)).flatten) = _
      rw [mapM_eq_ok hbelow]
      rfl
    · rw [mem_ancestorsWithin_succ, List.mem_cons, List.mem_flatten]
      constructor
      · rintro (rfl | ⟨_, hlist, hy⟩)
        · exact ⟨isLive_iff.mpr ⟨node, hnode⟩, Or.inl rfl⟩
        · obtain ⟨child, hchild, rfl⟩ := List.mem_map.mp hlist
          obtain ⟨hlive, hwalk⟩ := (hmem child hchild y).mp hy
          exact ⟨hlive, Or.inr ⟨child, (h.mem_below_iff hnode).mp hchild, hwalk⟩⟩
      · rintro ⟨hlive, rfl | ⟨child, hparent, hwalk⟩⟩
        · exact Or.inl rfl
        · have hchild := (h.mem_below_iff hnode).mpr hparent
          exact Or.inr ⟨_, List.mem_map_of_mem hchild, (hmem child hchild y).mpr ⟨hlive, hwalk⟩⟩

/-- Everything inside a live node is found by the walk down from it, and nothing else. -/
theorem descendants_eq (h : tree.WellFormed) {id : NodeId} {node : Node}
    (hnode : tree.node? id = some node) :
    ∃ ids, tree.descendants id = .ok ids ∧
      ∀ y, y ∈ ids ↔ tree.isLive y = true ∧ tree.Inside y id := by
  obtain ⟨ids, hids, hmem⟩ := h.descendantsWithin_eq (tree.cells.size + 1) hnode
  refine ⟨ids, hids, fun y => ?_⟩
  rw [hmem]
  constructor
  · rintro ⟨hlive, hwalk⟩
    exact ⟨hlive, inside_of_mem_ancestorsWithin hwalk⟩
  · rintro ⟨hlive, hinside⟩
    exact ⟨hlive, (h.grounded hlive).mem_ancestors_iff.mpr hinside⟩

/-- Fuel which suffices to get to the bottom is as good as any. -/
theorem descendantsWithin_eq_of_lt (h : tree.WellFormed) {fuel more : Nat} {id : NodeId}
    (hlive : tree.isLive id = true)
    (hfuel : tree.cells.size < fuel + (tree.ancestors id).length)
    (hmore : tree.cells.size < more + (tree.ancestors id).length) :
    tree.descendantsWithin fuel id = tree.descendantsWithin more id := by
  have hbound : (tree.ancestors id).length ≤ tree.cells.size :=
    (h.grounded hlive).length_ancestors_le
  induction fuel generalizing more id with
  | zero => omega
  | succ fuel ih =>
    cases more with
    | zero => omega
    | succ more =>
      obtain ⟨node, hnode⟩ := isLive_iff.mp hlive
      have hchildren : ∀ child ∈ node.below,
          tree.descendantsWithin fuel child = tree.descendantsWithin more child := by
        intro child hmem
        have hparent := (h.mem_below_iff hnode).mp hmem
        obtain ⟨kind, hchild⟩ := node?_of_parent? hparent
        have hchildLive := isLive_iff.mpr ⟨_, hchild⟩
        have hground := h.grounded hchildLive
        have hlength := hground.length_ancestors hparent
        exact ih hchildLive (by omega) (by omega) hground.length_ancestors_le
      rw [descendantsWithin, descendantsWithin, Tree.node, hnode]
      show (do return id :: (← node.below.mapM (tree.descendantsWithin fuel)).flatten) = _
      rw [mapM_congr hchildren]
      rfl

end WellFormed

end FormulaEditor.Tree
