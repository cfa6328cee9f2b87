import FormulaEditor.Proofs.Tree.Simulation

/-!
# Places

The place of a node says how it is reached from the root, without naming any node (`Tree.nodeAt?`).
In a well-formed tree no node has two places, and in a whole tree every live node has one. Two
well-formed trees whose roots show the same line differ only in names: nodes at the same place
correspond (`Tree.twins_of_line_eq`).
-/

set_option autoImplicit false

namespace FormulaEditor

open List (Forall₂)

namespace Tree

/-- The node at a place. A place tells which of the nodes below its parent the node is, then which
one below its own parent the parent is, and so on up to the root. -/
def nodeAt? (tree : Tree) : List Nat → Option NodeId
  | [] => some root
  | index :: place => do
    let node ← tree.node? (← tree.nodeAt? place)
    node.below[index]?

/-- Whether two nodes are at the same place of their trees. -/
def SamePlace (a b : Tree) (x y : NodeId) : Prop :=
  ∃ place, a.nodeAt? place = some x ∧ b.nodeAt? place = some y

variable {tree a b : Tree} {x y : NodeId} {R : NodeId → NodeId → Prop}

/-- A place is one step below another one. -/
theorem nodeAt?_cons_eq_some_iff {index : Nat} {place : List Nat} :
    tree.nodeAt? (index :: place) = some x ↔ ∃ parent node, tree.nodeAt? place = some parent ∧
      tree.node? parent = some node ∧ node.below[index]? = some x := by
  simp [nodeAt?, Option.bind_eq_some_iff]

namespace WellFormed

/-- What is at a place is live, and its parent is at the rest of the place. -/
theorem parent?_of_nodeAt? (h : tree.WellFormed) {index : Nat} {place : List Nat}
    (hx : tree.nodeAt? (index :: place) = some x) :
    ∃ parent node, tree.nodeAt? place = some parent ∧ tree.node? parent = some node ∧
      node.below[index]? = some x ∧ tree.parent? x = some parent := by
  obtain ⟨parent, node, hparent, hnode, hindex⟩ := nodeAt?_cons_eq_some_iff.mp hx
  exact ⟨parent, node, hparent, hnode, hindex,
    (h.mem_below_iff hnode).mp (List.mem_of_getElem? hindex)⟩

/-- What is at a place of a well-formed tree is live. -/
theorem isLive_of_nodeAt? (h : tree.WellFormed) {place : List Nat}
    (hx : tree.nodeAt? place = some x) : tree.isLive x = true := by
  cases place with
  | nil =>
    cases hx
    obtain ⟨items, hroot⟩ := h.root
    exact isLive_iff.mpr ⟨_, hroot⟩
  | cons index place =>
    obtain ⟨parent, node, -, -, -, hparent⟩ := h.parent?_of_nodeAt? hx
    obtain ⟨kind, hx⟩ := node?_of_parent? hparent
    exact isLive_iff.mpr ⟨_, hx⟩

/-- No node has two places. -/
theorem place_unique (h : tree.WellFormed) {place other : List Nat}
    (hx : tree.nodeAt? place = some x) (hx' : tree.nodeAt? other = some x) : place = other := by
  have hroot := h.parent?_root
  induction place generalizing other x with
  | nil =>
    cases hx
    cases other with
    | nil => rfl
    | cons index other =>
      obtain ⟨_, _, -, -, -, hparent⟩ := h.parent?_of_nodeAt? hx'
      rw [hroot] at hparent
      cases hparent
  | cons index place ih =>
    obtain ⟨parent, node, hplace, hnode, hindex, hparent⟩ := h.parent?_of_nodeAt? hx
    cases other with
    | nil =>
      cases hx'
      rw [hroot] at hparent
      cases hparent
    | cons index' other =>
      obtain ⟨parent', node', hplace', hnode', hindex', hparent'⟩ := h.parent?_of_nodeAt? hx'
      rw [hparent] at hparent'
      cases hparent'
      rw [hnode] at hnode'
      cases hnode'
      obtain ⟨hlt, hget⟩ := List.getElem?_eq_some_iff.mp hindex
      obtain ⟨hlt', hget'⟩ := List.getElem?_eq_some_iff.mp hindex'
      have heq : index = index' :=
        ((h.nodup_below hnode).getElem_inj_iff).mp (hget.trans hget'.symm)
      rw [heq, ih hplace hplace']

end WellFormed

/-- Every live node of a whole tree has a place. -/
theorem Whole.exists_place (h : tree.Whole) (hx : tree.isLive x = true) :
    ∃ place, tree.nodeAt? place = some x := by
  have hinside := h.connected x hx
  clear hx
  induction hinside using Relation.ReflTransGen.head_induction_on with
  | refl => exact ⟨[], rfl⟩
  | @head x parent hstep _ ih =>
    obtain ⟨place, hplace⟩ := ih
    obtain ⟨node, hnode⟩ := isLive_iff.mp (h.wellFormed.isLive_of_nodeAt? hplace)
    obtain ⟨index, hindex⟩ :=
      List.getElem?_of_mem ((h.wellFormed.mem_below_iff hnode).mpr hstep)
    exact ⟨index :: place, nodeAt?_cons_eq_some_iff.mpr ⟨parent, node, hplace, hnode, hindex⟩⟩

/-! ## From names to places -/

/-- At the same place there are corresponding nodes. -/
theorem Pairing.rel_nodeAt? (h : Pairing R a b) (place : List Nat) :
    Option.Rel R (a.nodeAt? place) (b.nodeAt? place) := by
  induction place with
  | nil => exact .some h.root
  | cons index place ih =>
    simp only [nodeAt?]
    generalize a.nodeAt? place = parent, b.nodeAt? place = parent' at ih ⊢
    cases ih with
    | none => exact .none
    | @some parent parent' hparent =>
      have hnode := h.node hparent
      simp only [Option.bind_eq_bind, Option.bind_some]
      generalize a.node? parent = node, b.node? parent' = node' at hnode ⊢
      cases hnode with
      | none => exact .none
      | some hnode => exact rel_getElem? hnode.below index

/-- Corresponding nodes are at the same place. -/
theorem Pairing.samePlace (h : Pairing R a b) (ha : a.Whole) (hx : a.isLive x = true)
    (hxy : R x y) : SamePlace a b x y := by
  obtain ⟨place, hplace⟩ := ha.exists_place hx
  refine ⟨place, hplace, ?_⟩
  have hrel := h.rel_nodeAt? place
  rw [hplace] at hrel
  generalize b.nodeAt? place = other at hrel ⊢
  cases hrel with
  | some hother => rw [h.unique.2 hxy hother]

end Tree

/-! ## From what is shown to names -/

/-- Only starts show nothing. -/
theorem Symbol.glyph?_eq_none_iff {inner : NodeId → Line} {symbol : Symbol} :
    symbol.glyph? inner = none ↔ symbol = .start := by
  cases symbol <;> simp [Symbol.glyph?]

/-- Symbols which show the same are alike, with slots which show the same. -/
theorem Symbol.alike_of_glyph?_eq {inner inner' : NodeId → Line} {symbol other : Symbol}
    (h : symbol.glyph? inner = other.glyph? inner') :
    Symbol.Alike (fun slot slot' => inner slot = inner' slot') symbol other := by
  cases symbol <;> cases other <;> simp only [Symbol.glyph?, Option.some.injEq, reduceCtorEq,
    Glyph.atom.injEq, Glyph.bracket.injEq, Glyph.fraction.injEq, Glyph.superscript.injEq,
    Glyph.radical.injEq] at h
  · exact .start
  · exact h ▸ .atom _
  · exact h ▸ .bracket _
  · exact .bar
  · exact .fraction h.1 h.2
  · exact .superscript h
  · exact .radical h

/-- Symbols which are alike in some way are alike in any way in which their slots correspond. -/
theorem Symbol.Alike.of_slots {R S : NodeId → NodeId → Prop} {symbol other : Symbol}
    (h : Symbol.Alike S symbol other) (hslots : Forall₂ R symbol.slots other.slots) :
    Symbol.Alike R symbol other := by
  cases h with
  | start => exact .start
  | atom c => exact .atom c
  | bracket side => exact .bracket side
  | bar => exact .bar
  | fraction _ _ =>
    cases hslots with
    | cons hnumerator hrest =>
      cases hrest with
      | cons hdenominator _ => exact .fraction hnumerator hdenominator
  | superscript _ =>
    cases hslots with
    | cons hslot _ => exact .superscript hslot
  | radical _ =>
    cases hslots with
    | cons hslot _ => exact .radical hslot

namespace Tree

variable {a b : Tree} {x y : NodeId}

/-- Two nodes show the same: two expressions the same line, two symbols the same glyph. -/
inductive ShownAlike (a b : Tree) (x y : NodeId) : Prop
  | expression {owner owner' : Option NodeId} {items items' : List NodeId}
      (left : a.node? x = some ⟨owner, .expression items⟩)
      (right : b.node? y = some ⟨owner', .expression items'⟩) (h : a.line x = b.line y)
  | symbol {parent parent' : Option NodeId} {symbol symbol' : Symbol}
      (left : a.node? x = some ⟨parent, .symbol symbol⟩)
      (right : b.node? y = some ⟨parent', .symbol symbol'⟩) (h : a.glyph? x = b.glyph? y)

/-- Below two nodes which show the same, what is at the same position shows the same. -/
theorem ShownAlike.below (ha : a.WellFormed) (hb : b.WellFormed) (h : ShownAlike a b x y) :
    ∃ node node', a.node? x = some node ∧ b.node? y = some node' ∧
      Forall₂ (ShownAlike a b) node.below node'.below := by
  cases h with
  | expression left right h =>
    refine ⟨_, _, left, right, ?_⟩
    rw [ha.line_eq left, hb.line_eq right] at h
    obtain ⟨-, first, others, rfl, hfirst, hothers⟩ := ha.lists left
    obtain ⟨-, first', others', rfl, hfirst', hothers'⟩ := hb.lists right
    have hstart : a.glyph? first = none := glyph?_of_node? hfirst
    have hstart' : b.glyph? first' = none := glyph?_of_node? hfirst'
    rw [List.filterMap_cons, hstart, List.filterMap_cons, hstart'] at h
    refine .cons (.symbol hfirst hfirst' (hstart.trans hstart'.symm)) ?_
    refine forall₂_imp_of_mem (forall₂_of_filterMap_eq ?_ ?_ h) ?_
    · intro id hid
      obtain ⟨symbol, hsymbol, hnode⟩ := hothers id hid
      rw [glyph?_of_node? hnode]
      exact mt Symbol.glyph?_eq_none_iff.mp hsymbol
    · intro id hid
      obtain ⟨symbol, hsymbol, hnode⟩ := hothers' id hid
      rw [glyph?_of_node? hnode]
      exact mt Symbol.glyph?_eq_none_iff.mp hsymbol
    · intro id hid id' hid' hglyph
      obtain ⟨symbol, -, hnode⟩ := hothers id hid
      obtain ⟨symbol', -, hnode'⟩ := hothers' id' hid'
      exact .symbol hnode hnode' hglyph
  | symbol left right h =>
    refine ⟨_, _, left, right, ?_⟩
    rw [glyph?_of_node? left, glyph?_of_node? right] at h
    refine forall₂_imp_of_mem (Symbol.alike_of_glyph?_eq h).slots ?_
    intro slot hslot slot' hslot' hline
    obtain ⟨items, hnode⟩ := (ha.slots left).2 slot hslot
    obtain ⟨items', hnode'⟩ := (hb.slots right).2 slot' hslot'
    exact .expression hnode hnode' hline

/-- If the roots show the same line, what is at the same place shows the same. -/
theorem rel_nodeAt?_of_line_eq (ha : a.WellFormed) (hb : b.WellFormed)
    (h : a.line root = b.line root) (place : List Nat) :
    Option.Rel (ShownAlike a b) (a.nodeAt? place) (b.nodeAt? place) := by
  induction place with
  | nil =>
    obtain ⟨items, hroot⟩ := ha.root
    obtain ⟨items', hroot'⟩ := hb.root
    exact .some (.expression hroot hroot' h)
  | cons index place ih =>
    simp only [nodeAt?]
    generalize a.nodeAt? place = parent, b.nodeAt? place = parent' at ih ⊢
    cases ih with
    | none => exact .none
    | some hparent =>
      obtain ⟨node, node', hnode, hnode', hbelow⟩ := hparent.below ha hb
      simp only [Option.bind_eq_bind, Option.bind_some, hnode, hnode']
      exact rel_getElem? hbelow index

/-- Names of nodes at the same place, and names which have not been given yet in their order. -/
def Corresponding (a b : Tree) (x y : NodeId) : Prop :=
  SamePlace a b x y ∨ ∃ k, x = a.nextId + k ∧ y = b.nextId + k

/-- A node corresponds to one node only, from both sides. -/
theorem Corresponding.biUnique (ha : a.WellFormed) (hb : b.WellFormed) :
    Relator.BiUnique (Corresponding a b) := by
  have hlive : ∀ {tree : Tree} {place k}, tree.WellFormed →
      tree.nodeAt? place ≠ some (tree.nextId + k) := by
    intro tree place k htree hplace
    obtain ⟨node, hnode⟩ := isLive_iff.mp (htree.isLive_of_nodeAt? hplace)
    exact ne_nextId_add_of_node? hnode k rfl
  constructor
  · rintro x x' y (⟨place, hx, hy⟩ | ⟨k, rfl, rfl⟩) (⟨place', hx', hy'⟩ | ⟨k', rfl, hk⟩)
    · rw [hb.place_unique hy hy', hx'] at hx
      exact (Option.some.inj hx).symm
    · exact absurd (hk ▸ hy) (hlive hb)
    · exact absurd hy' (hlive hb)
    · rw [Nat.add_left_cancel hk]
  · rintro x y y' (⟨place, hx, hy⟩ | ⟨k, rfl, rfl⟩) (⟨place', hx', hy'⟩ | ⟨k', hk, rfl⟩)
    · rw [ha.place_unique hx hx', hy'] at hy
      exact (Option.some.inj hy).symm
    · exact absurd (hk ▸ hx) (hlive ha)
    · exact absurd hx' (hlive ha)
    · rw [Nat.add_left_cancel hk]

/-- Nodes at the same place are alike. -/
theorem alike_of_samePlace (ha : a.WellFormed) (hb : b.WellFormed)
    (h : a.line root = b.line root) (hxy : SamePlace a b x y) :
    ∃ node node', a.node? x = some node ∧ b.node? y = some node' ∧
      Node.Alike (Corresponding a b) node node' := by
  obtain ⟨place, hx, hy⟩ := hxy
  have hshown := rel_nodeAt?_of_line_eq ha hb h place
  rw [hx, hy] at hshown
  cases hshown with
  | some hshown =>
    obtain ⟨node, node', hnode, hnode', hrel⟩ := hshown.below ha hb
    -- what is at the same position below the two nodes is at the same place
    have hbelow : Forall₂ (Corresponding a b) node.below node'.below := by
      refine List.forall₂_iff_get.mpr ⟨hrel.length_eq, fun index hlt hlt' => Or.inl ?_⟩
      exact ⟨index :: place,
        nodeAt?_cons_eq_some_iff.mpr ⟨x, node, hx, hnode, List.getElem?_eq_getElem hlt⟩,
        nodeAt?_cons_eq_some_iff.mpr ⟨y, node', hy, hnode', List.getElem?_eq_getElem hlt'⟩⟩
    have hparent : Option.Rel (Corresponding a b) node.parent node'.parent := by
      rw [← parent?_of_node? hnode, ← parent?_of_node? hnode']
      cases place with
      | nil =>
        cases hx
        cases hy
        obtain ⟨items, hroot⟩ := ha.root
        obtain ⟨items', hroot'⟩ := hb.root
        rw [parent?_of_node? hroot, parent?_of_node? hroot']
        exact .none
      | cons index place =>
        obtain ⟨parent, _, hplace, -, -, hup⟩ := ha.parent?_of_nodeAt? hx
        obtain ⟨parent', _, hplace', -, -, hup'⟩ := hb.parent?_of_nodeAt? hy
        rw [hup, hup']
        exact .some (Or.inl ⟨place, hplace, hplace'⟩)
    refine ⟨node, node', hnode, hnode', hparent, ?_⟩
    cases hshown with
    | expression left right _ =>
      rw [hnode] at left
      rw [hnode'] at right
      cases left
      cases right
      exact .expression hbelow
    | symbol left right hglyph =>
      rw [glyph?_of_node? left, glyph?_of_node? right] at hglyph
      rw [hnode] at left
      rw [hnode'] at right
      cases left
      cases right
      exact .symbol ((Symbol.alike_of_glyph?_eq hglyph).of_slots hbelow)

/-- Well-formed trees whose roots show the same line differ only in names. -/
theorem twins_of_line_eq (ha : a.WellFormed) (hb : b.WellFormed)
    (h : a.line root = b.line root) : Twins (Corresponding a b) a b where
  unique := Corresponding.biUnique ha hb
  root := Or.inl ⟨[], rfl, rfl⟩
  fresh k := Or.inr ⟨k, rfl, rfl⟩
  node hxy := by
    rcases hxy with hplace | ⟨k, rfl, rfl⟩
    · obtain ⟨node, node', hnode, hnode', halike⟩ := alike_of_samePlace ha hb h hplace
      rw [hnode, hnode']
      exact .some halike
    · rw [a.node?_of_nextId_le (Nat.le_add_right _ _), b.node?_of_nextId_le (Nat.le_add_right _ _)]
      exact .none
  left := ha
  right := hb

end Tree

end FormulaEditor
