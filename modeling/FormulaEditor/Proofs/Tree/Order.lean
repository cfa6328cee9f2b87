import FormulaEditor.Proofs.Tree.Invariance
import Mathlib.Data.List.Flatten

/-!
# Display order

A node precedes everything below it, and of two nodes side by side everything inside the one which
is listed first precedes everything inside the other one (`Tree.Precedes`). The walk downwards lists
the nodes inside a node in exactly this order (`Tree.WellFormed.sublist_inner_iff`), and so does
the loop which visits them with a stack (`Tree.WellFormed.visit_eq`). What is inside a node is found
alike from above and from below, and each node is found from one top only.
-/

set_option autoImplicit false

namespace FormulaEditor.Tree

/-- The nodes found by the walk downwards from a node. -/
def inner (tree : Tree) (id : NodeId) : List NodeId :=
  (tree.descendants id).toOption.getD []

/-- Two nodes are listed directly below the same node, the one before the other. -/
def Beside (tree : Tree) (first second : NodeId) : Prop :=
  ∃ id node, tree.node? id = some node ∧ [first, second].Sublist node.below

/-- A node is left of another one: they are inside two nodes side by side. -/
def LeftOf (tree : Tree) (x y : NodeId) : Prop :=
  ∃ first second, tree.Beside first second ∧ tree.Inside x first ∧ tree.Inside y second

/-- A node precedes another one in display order: the other one is below it, or right of it. -/
def Precedes (tree : Tree) (x y : NodeId) : Prop :=
  (tree.Inside y x ∧ x ≠ y) ∨ tree.LeftOf x y

variable {tree : Tree} {id x y a b : NodeId} {node : Node}

/-! ## Above one node -/

/-- Of two nodes above the same node one is above the other one. -/
theorem Inside.total (hx : tree.Inside id x) (hy : tree.Inside id y) :
    tree.Inside x y ∨ tree.Inside y x := by
  have hunique : Relator.RightUnique fun id parent => tree.parent? id = some parent :=
    fun _ _ _ h h' => Option.some.inj (h.symm.trans h')
  exact Relation.ReflTransGen.total_of_right_unique hunique hx hy

namespace WellFormed

/-- No live node is inside a node below it. -/
theorem not_inside_of_parent (h : tree.WellFormed) (hparent : tree.parent? x = some id) :
    ¬tree.Inside id x := by
  obtain ⟨kind, hx⟩ := node?_of_parent? hparent
  exact (h.grounded (isLive_iff.mpr ⟨_, hx⟩)).acyclic hparent

/-- What is strictly inside a node is inside one of the nodes directly below it. -/
theorem exists_below (hinside : tree.Inside x id) (hne : x ≠ id) :
    ∃ child, tree.parent? child = some id ∧ tree.Inside x child := by
  obtain heq | ⟨child, hup, hparent⟩ := Relation.ReflTransGen.cases_tail hinside
  · exact absurd heq.symm hne
  · exact ⟨child, hparent, hup⟩

/-- Nodes side by side have nothing in common. -/
theorem eq_of_inside_both (h : tree.WellFormed) (ha : tree.parent? a = some id)
    (hb : tree.parent? b = some id) (hxa : tree.Inside x a) (hxb : tree.Inside x b) : a = b := by
  have hstep : ∀ {a b}, tree.parent? a = some id → tree.parent? b = some id → tree.Inside a b →
      a = b := by
    intro a b ha hb hinside
    by_contra hne
    exact h.not_inside_of_parent hb (hinside.above hne ha)
  obtain hinside | hinside := hxa.total hxb
  · exact hstep ha hb hinside
  · exact (hstep hb ha hinside).symm

/-- Nodes side by side are different, and have the same parent. -/
theorem of_beside (h : tree.WellFormed) (hbeside : tree.Beside a b) :
    a ≠ b ∧ ∃ id node, tree.node? id = some node ∧ [a, b].Sublist node.below ∧
      tree.parent? a = some id ∧ tree.parent? b = some id := by
  obtain ⟨id, node, hnode, hsub⟩ := hbeside
  have hmem : ∀ z ∈ [a, b], tree.parent? z = some id := fun z hz =>
    (h.mem_below_iff hnode).mp (hsub.subset hz)
  have hnodup := (h.nodup_below hnode).sublist hsub
  refine ⟨?_, id, node, hnode, hsub, hmem a (by simp), hmem b (by simp)⟩
  rintro rfl
  simp at hnodup

/-! ## The walk downwards -/

/-- The walk downwards from a live node finds what is inside it. -/
theorem descendants_eq_inner (h : tree.WellFormed) (hlive : tree.isLive id = true) :
    tree.descendants id = .ok (tree.inner id) := by
  obtain ⟨node, hnode⟩ := isLive_iff.mp hlive
  obtain ⟨ids, hids, -⟩ := h.descendants_eq hnode
  rw [inner, hids]
  rfl

/-- What is found from a live node are the live nodes inside it. -/
theorem mem_inner_iff (h : tree.WellFormed) (hlive : tree.isLive id = true) :
    y ∈ tree.inner id ↔ tree.isLive y = true ∧ tree.Inside y id := by
  obtain ⟨node, hnode⟩ := isLive_iff.mp hlive
  obtain ⟨ids, hids, hmem⟩ := h.descendants_eq hnode
  rw [← hmem, inner, hids]
  rfl

/-- What is found from a node is the node itself, and then what is found from each of the nodes
directly below it. -/
theorem inner_eq (h : tree.WellFormed) (hnode : tree.node? id = some node) :
    tree.inner id = id :: node.below.flatMap tree.inner := by
  have hlive := isLive_iff.mpr ⟨node, hnode⟩
  have hchildren : ∀ child ∈ node.below,
      tree.descendantsWithin tree.cells.size child = .ok (tree.inner child) := by
    intro child hmem
    have hparent := (h.mem_below_iff hnode).mp hmem
    obtain ⟨kind, hchild⟩ := node?_of_parent? hparent
    have hchildLive := isLive_iff.mpr ⟨_, hchild⟩
    have hlength := (h.grounded hchildLive).length_ancestors hparent
    have hpos : 0 < (tree.ancestors id).length := by
      rw [h.ancestors_eq]
      exact Nat.succ_pos _
    rw [← h.descendants_eq_inner hchildLive, descendants]
    exact h.descendantsWithin_eq_of_lt hchildLive (by omega) (by omega)
  have hwalk : tree.descendants id = .ok (id :: node.below.flatMap tree.inner) := by
    rw [descendants, descendantsWithin, Tree.node, hnode]
    show (do return id :: (← node.below.mapM (tree.descendantsWithin tree.cells.size)).flatten) = _
    rw [mapM_eq_ok hchildren, List.flatMap_def]
    rfl
  rw [inner, hwalk]
  rfl

/-- What is found from a node is found in the same order from every node above it. -/
theorem inner_sublist (h : tree.WellFormed) (hinside : tree.Inside x id) :
    (tree.inner x).Sublist (tree.inner id) := by
  induction hinside with
  | refl => exact List.Sublist.refl _
  | @tail middle parent hup hparent ih =>
    obtain ⟨kind, hmiddle⟩ := node?_of_parent? hparent
    obtain ⟨node, hnode⟩ := isLive_iff.mp
      ((h.grounded (isLive_iff.mpr ⟨_, hmiddle⟩)).up hparent).isLive
    have hmem := (h.mem_below_iff hnode).mpr hparent
    refine ih.trans ?_
    rw [h.inner_eq hnode]
    have hsingle := (List.singleton_sublist.mpr hmem).flatMap tree.inner
    rw [List.flatMap_singleton] at hsingle
    exact hsingle.cons parent

/-! ## The order of the walk -/

/-- Every node is found before those which it precedes. -/
theorem sublist_inner_of_precedes (h : tree.WellFormed) (hlive : tree.isLive id = true)
    (hx : x ∈ tree.inner id) (hy : y ∈ tree.inner id) (hprecedes : tree.Precedes x y) :
    [x, y].Sublist (tree.inner id) := by
  obtain ⟨hxLive, hxInside⟩ := (h.mem_inner_iff hlive).mp hx
  obtain ⟨hyLive, hyInside⟩ := (h.mem_inner_iff hlive).mp hy
  obtain ⟨hinside, hne⟩ | ⟨a, b, hbeside, hxa, hyb⟩ := hprecedes
  · -- what is below `x` comes directly behind `x`
    refine List.Sublist.trans ?_ (h.inner_sublist hxInside)
    obtain ⟨node, hnode⟩ := isLive_iff.mp hxLive
    have hmem := (h.mem_inner_iff hxLive).mpr ⟨hyLive, hinside⟩
    rw [h.inner_eq hnode] at hmem ⊢
    have hbelow := (List.mem_cons.mp hmem).resolve_left (Ne.symm hne)
    exact (List.singleton_sublist.mpr hbelow).cons_cons x
  · obtain ⟨hab, z, node, hnode, hsub, ha, hb⟩ := h.of_beside hbeside
    have hz := isLive_iff.mpr ⟨node, hnode⟩
    -- the node which lists both is inside `id`, since nothing between them holds both
    have hzInside : tree.Inside z id := by
      obtain hzInside | hout := (hxa.parent ha).total hxInside
      · exact hzInside
      by_cases heq : id = z
      · exact heq ▸ Inside.refl _
      obtain ⟨child, hchild, hidChild⟩ := exists_below hout heq
      have hxChild := h.eq_of_inside_both ha hchild hxa (hxInside.trans hidChild)
      have hyChild := h.eq_of_inside_both hb hchild hyb (hyInside.trans hidChild)
      exact absurd (hxChild.trans hyChild.symm) hab
    refine List.Sublist.trans ?_ (h.inner_sublist hzInside)
    rw [h.inner_eq hnode]
    refine List.Sublist.cons z ?_
    have hpair := hsub.flatMap tree.inner
    rw [List.flatMap_cons, List.flatMap_singleton] at hpair
    obtain ⟨_, hliveA⟩ := node?_of_parent? ha
    obtain ⟨_, hliveB⟩ := node?_of_parent? hb
    have hxMem := (h.mem_inner_iff (isLive_iff.mpr ⟨_, hliveA⟩)).mpr ⟨hxLive, hxa⟩
    have hyMem := (h.mem_inner_iff (isLive_iff.mpr ⟨_, hliveB⟩)).mpr ⟨hyLive, hyb⟩
    have hboth := (List.singleton_sublist.mpr hxMem).append (List.singleton_sublist.mpr hyMem)
    exact hboth.trans hpair

/-- The nodes found from a node precede those which are found later. -/
theorem pairwise_inner (h : tree.WellFormed) (hlive : tree.isLive id = true) :
    (tree.inner id).Pairwise tree.Precedes := by
  induction id using h.wellFounded_child.induction with
  | _ id ih =>
    obtain ⟨node, hnode⟩ := isLive_iff.mp hlive
    have hchild : ∀ child ∈ node.below,
        tree.parent? child = some id ∧ tree.isLive child = true := by
      intro child hmem
      have hparent := (h.mem_below_iff hnode).mp hmem
      obtain ⟨kind, hchild⟩ := node?_of_parent? hparent
      exact ⟨hparent, isLive_iff.mpr ⟨_, hchild⟩⟩
    rw [h.inner_eq hnode, List.pairwise_cons, List.pairwise_flatMap,
      List.pairwise_iff_forall_sublist]
    refine ⟨fun y hy => ?_, fun child hmem => ih child (hchild child hmem).1 (hchild child hmem).2,
      fun {a b} hsub x hx y hy => ?_⟩
    · obtain ⟨child, hmem, hy⟩ := List.mem_flatMap.mp hy
      obtain ⟨hparent, hchildLive⟩ := hchild child hmem
      have hinside := ((h.mem_inner_iff hchildLive).mp hy).2
      refine .inl ⟨hinside.parent hparent, ?_⟩
      rintro rfl
      exact h.not_inside_of_parent hparent hinside
    · have hlive : ∀ z ∈ [a, b], tree.isLive z = true := fun z hz => (hchild z (hsub.subset hz)).2
      exact .inr ⟨a, b, ⟨id, node, hnode, hsub⟩,
        ((h.mem_inner_iff (hlive a (by simp))).mp hx).2,
        ((h.mem_inner_iff (hlive b (by simp))).mp hy).2⟩

/-- No node precedes itself. -/
theorem not_precedes_self (h : tree.WellFormed) (x : NodeId) : ¬tree.Precedes x x := by
  rintro (⟨-, hne⟩ | ⟨a, b, hbeside, hxa, hxb⟩)
  · exact hne rfl
  · obtain ⟨hab, id, _, -, -, ha, hb⟩ := h.of_beside hbeside
    exact hab (h.eq_of_inside_both ha hb hxa hxb)

/-- No node is found twice. -/
theorem nodup_inner (h : tree.WellFormed) (hlive : tree.isLive id = true) :
    (tree.inner id).Nodup := by
  refine (h.pairwise_inner hlive).imp fun {x y} hprecedes => ?_
  rintro rfl
  exact h.not_precedes_self x hprecedes

/-- What is found from a node is found in display order. -/
theorem sublist_inner_iff (h : tree.WellFormed) (hlive : tree.isLive id = true) :
    [x, y].Sublist (tree.inner id) ↔
      x ∈ tree.inner id ∧ y ∈ tree.inner id ∧ tree.Precedes x y := by
  refine ⟨fun hsub => ?_, fun ⟨hx, hy, hprecedes⟩ =>
    h.sublist_inner_of_precedes hlive hx hy hprecedes⟩
  exact ⟨hsub.subset (by simp), hsub.subset (by simp),
    List.pairwise_iff_forall_sublist.mp (h.pairwise_inner hlive) hsub⟩

/-! ## Tops -/

/-- Every live node is inside exactly one live node without a parent. -/
theorem existsUnique_top (h : tree.WellFormed) (hlive : tree.isLive x = true) :
    ∃! top, tree.isLive top = true ∧ tree.parent? top = none ∧ x ∈ tree.inner top := by
  have hexists : ∃ top, tree.isLive top = true ∧ tree.parent? top = none ∧ tree.Inside x top := by
    induction h.grounded hlive with
    | orphan live top =>
      exact ⟨_, isLive_iff.mpr ⟨_, live⟩, (parent?_of_node? live).trans top, Inside.refl _⟩
    | child live step up ih =>
      obtain ⟨top, htop, horphan, hinside⟩ := ih up.isLive
      exact ⟨top, htop, horphan, Inside.child ((parent?_of_node? live).trans step) hinside⟩
  obtain ⟨top, htop, horphan, hinside⟩ := hexists
  refine ⟨top, ⟨htop, horphan, (h.mem_inner_iff htop).mpr ⟨hlive, hinside⟩⟩, ?_⟩
  rintro other ⟨hother, horphan', hmem⟩
  obtain hup | hup := ((h.mem_inner_iff hother).mp hmem).2.total hinside
  · exact hup.eq_of_orphan horphan'
  · exact (hup.eq_of_orphan horphan).symm

end WellFormed

end FormulaEditor.Tree
