import FormulaEditor.Proofs.Naming

/-!
# Layout by need

Who has laid a tree out needs to lay out only what is marked afterwards. A change marks the
expression whose list it changes and everything above it, so at any time everything above a marked
node is marked, and a node without a mark is what it was when the marks were last taken
(`Tree.UpToDate`). Since then everything inside such a node has no mark either, so the node shows
what it showed, wherever it has been moved (`Editor.Reachable.layout_by_need`).
-/

set_option autoImplicit false

namespace FormulaEditor

namespace Tree

variable {tree other base : Tree} {id expression : NodeId}

/-- What a node is, wherever it stands. -/
def kind? (tree : Tree) (id : NodeId) : Option NodeKind :=
  (tree.node? id).map (·.kind)

/-- What a node is can be told from the node. -/
theorem kind?_of_node? {node : Node} (h : tree.node? id = some node) :
    tree.kind? id = some node.kind := by
  rw [kind?, h]
  rfl

/-! ## Marks -/

/-- Only names which have been given are marked. -/
theorem lt_nextId_of_isMarked (h : tree.isMarked id = true) : id < tree.nextId := by
  unfold isMarked at h
  cases hcell : tree.cells[id]? with
  | none =>
    rw [hcell] at h
    cases h
  | some cell => exact (Array.getElem?_eq_some_iff.mp hcell).1

/-- A change of a cell which keeps its mark keeps all marks. -/
theorem isMarked_modifyCell (tree : Tree) (id y : NodeId) {change : Cell → Cell}
    (hchange : ∀ cell, (change cell).marked = cell.marked) :
    (tree.modifyCell id change).isMarked y = tree.isMarked y := by
  unfold isMarked modifyCell
  rw [Array.getElem?_modify]
  by_cases h : id = y
  · rw [if_pos h]
    cases tree.cells[y]? with
    | none => rfl
    | some cell => exact hchange cell
  · rw [if_neg h]

/-- Changing a node marks nothing. -/
@[simp] theorem isMarked_update (tree : Tree) (id : NodeId) (change : Node → Node) (y : NodeId) :
    (tree.update id change).isMarked y = tree.isMarked y :=
  tree.isMarked_modifyCell id y fun _ => rfl

/-- Killing nodes takes no marks away. -/
@[simp] theorem isMarked_killAll (tree : Tree) (ids : List NodeId) (y : NodeId) :
    (tree.killAll ids).isMarked y = tree.isMarked y := by
  unfold killAll
  induction ids generalizing tree with
  | nil => rfl
  | cons id ids ih =>
    rw [List.foldl_cons, ih]
    exact tree.isMarked_modifyCell id y fun _ => rfl

/-- A new node has no mark. -/
@[simp] theorem isMarked_push (tree : Tree) (node : Node) (y : NodeId) :
    (tree.push node).isMarked y = tree.isMarked y := by
  unfold isMarked push
  rw [Array.getElem?_push]
  by_cases h : y = tree.cells.size
  · rw [if_pos h, h, Array.getElem?_eq_none (Nat.le_refl _)]
    rfl
  · rw [if_neg h]

/-- A new symbol and its slots have no marks. -/
@[simp] theorem isMarked_pushSymbol (tree : Tree) (stroke : Stroke) (y : NodeId) :
    (tree.pushSymbol stroke).isMarked y = tree.isMarked y := by
  cases stroke <;> simp [pushSymbol, pushExpression, Stroke.symbol, Symbol.slots]

/-- Without its marks a tree has none. -/
@[simp] theorem isMarked_unmark (tree : Tree) (y : NodeId) : tree.unmark.isMarked y = false := by
  unfold isMarked unmark
  rw [Array.getElem?_map]
  cases tree.cells[y]? <;> rfl

/-- Marking nodes marks these and leaves other marks as they are. -/
theorem isMarked_markAll (tree : Tree) (ids : List NodeId) {y : NodeId} (hy : y < tree.nextId) :
    (tree.markAll ids).isMarked y = true ↔ tree.isMarked y = true ∨ y ∈ ids := by
  unfold markAll
  induction ids generalizing tree with
  | nil => simp
  | cons id ids ih =>
    rw [List.foldl_cons, ih _ (by rwa [nextId_modifyCell]), List.mem_cons, ← or_assoc]
    refine or_congr_left ?_
    unfold isMarked modifyCell
    rw [Array.getElem?_modify]
    by_cases h : id = y
    · subst h
      rw [if_pos rfl, Array.getElem?_eq_getElem hy]
      simp
    · rw [if_neg h]
      simp [Ne.symm h]

/-- Marking a live node marks the nodes which it is inside of, and no others. -/
theorem isMarked_mark (h : (tree.mark id).WellFormed) (hlive : tree.isLive id = true)
    (y : NodeId) : (tree.mark id).isMarked y = true ↔
      tree.isMarked y = true ∨ (tree.mark id).Inside id y := by
  have hground := (h.congr fun id => (tree.node?_mark _ id).symm).grounded hlive
  have hinside : (tree.mark id).Inside id y ↔ tree.Inside id y := by
    simp only [Inside, parent?, node?_mark]
  rw [hinside]
  by_cases hy : y < tree.nextId
  · rw [mark, isMarked_markAll tree _ hy, hground.mem_ancestors_iff]
  · -- a name which has not been given is neither marked nor above anything
    have hnot : ¬ (tree.mark id).isMarked y = true := fun hmarked =>
      hy (nextId_mark tree id ▸ lt_nextId_of_isMarked hmarked)
    refine iff_of_false hnot (not_or.mpr ⟨fun hmarked => hy (lt_nextId_of_isMarked hmarked), ?_⟩)
    intro hinside
    obtain ⟨node, hnode⟩ := isLive_iff.mp (hground.of_inside hinside).isLive
    exact hy (lt_nextId_of_node? hnode)

/-! ## Trees which are up to date but for their marks -/

/-- A tree is what it was in an earlier state, but for what is marked: everything above a marked node
is marked, and a node without a mark which is live in both is the same in both. -/
structure UpToDate (base tree : Tree) : Prop where
  wellFormed : tree.WellFormed
  nextId_le : base.nextId ≤ tree.nextId
  isMarked_parent : ∀ {id parent : NodeId}, tree.isMarked id = true →
    tree.parent? id = some parent → tree.isMarked parent = true
  kind?_eq : ∀ {id : NodeId}, base.isLive id = true → tree.isLive id = true →
    tree.isMarked id = false → tree.kind? id = base.kind? id

/-- When the marks are taken, a tree is up to date. -/
theorem WellFormed.upToDate (h : tree.WellFormed) : UpToDate tree.unmark tree.unmark where
  wellFormed := h.congr fun id => tree.node?_unmark id
  nextId_le := Nat.le_refl _
  isMarked_parent hmarked := by
    rw [isMarked_unmark] at hmarked
    cases hmarked
  kind?_eq _ _ _ := rfl

namespace UpToDate

/-- Everything above a marked node is marked. -/
theorem isMarked_of_inside (h : UpToDate base tree) (hmarked : tree.isMarked id = true)
    {outer : NodeId} (hinside : tree.Inside id outer) : tree.isMarked outer = true := by
  induction hinside with
  | refl => exact hmarked
  | tail _ hstep ih => exact h.isMarked_parent ih hstep

/-- A new symbol has no mark, nor have its slots. -/
theorem pushSymbol (h : UpToDate base tree) (stroke : Stroke) :
    UpToDate base (tree.pushSymbol stroke) := by
  have hlt := (nextId_lt_pushSymbol tree stroke).le
  refine ⟨h.wellFormed.pushSymbol stroke, h.nextId_le.trans hlt, ?_, ?_⟩
  · intro y parent hmarked hparent
    rw [isMarked_pushSymbol] at hmarked ⊢
    rw [parent?, node?_pushSymbol_of_lt (lt_nextId_of_isMarked hmarked)] at hparent
    exact h.isMarked_parent hmarked hparent
  · intro y hbase hlive hunmarked
    obtain ⟨node, hnode⟩ := isLive_iff.mp hbase
    have hgiven := (lt_nextId_of_node? hnode).trans_le h.nextId_le
    rw [isMarked_pushSymbol] at hunmarked
    rw [isLive, node?_pushSymbol_of_lt hgiven] at hlive
    rw [kind?, node?_pushSymbol_of_lt hgiven]
    exact h.kind?_eq hbase hlive hunmarked

/-- The list of an expression may be changed if the expression and everything above it is marked. -/
theorem relist (h : UpToDate base tree) {symbol : Symbol} {before after owner : Option NodeId}
    {items items' : List NodeId}
    (hview : Relisting tree (other.mark expression) id expression symbol before after owner items
      items')
    (hother : (other.mark expression).WellFormed) (hnextId : other.nextId = tree.nextId)
    (hsame : ∀ y, other.isMarked y = tree.isMarked y) : UpToDate base (other.mark expression) := by
  have hlive : other.isLive expression = true := by
    rw [isLive, ← other.node?_mark expression, hview.node?_listing]
    rfl
  have hmarks : ∀ y, (other.mark expression).isMarked y = true ↔
      tree.isMarked y = true ∨ (other.mark expression).Inside expression y := by
    intro y
    rw [isMarked_mark hother hlive, hsame]
  refine ⟨hother, ?_, ?_, ?_⟩
  · rw [nextId_mark, hnextId]
    exact h.nextId_le
  · intro y parent hmarked hparent
    rw [hmarks] at hmarked ⊢
    rcases hmarked with hmarked | hinside
    · by_cases hid : y = id
      · -- the symbol which has moved stands in the expression now, or nowhere
        rw [hid, parent?_of_node? hview.node?_moved] at hparent
        rw [(hview.after_eq parent hparent).1]
        exact Or.inr (Inside.refl expression)
      · rw [hview.parent?_eq hid] at hparent
        exact Or.inl (h.isMarked_parent hmarked hparent)
    · exact Or.inr (hinside.parent hparent)
  · intro y hbase hlive hunmarked
    rw [Bool.eq_false_iff, ne_eq, hmarks, not_or] at hunmarked
    obtain ⟨hunmarked, houtside⟩ := hunmarked
    have hne : y ≠ expression := by
      rintro rfl
      exact houtside (Inside.refl y)
    have hkind : (other.mark expression).kind? y = tree.kind? y := by
      by_cases hid : y = id
      · rw [hid, kind?_of_node? hview.node?_moved, kind?_of_node? hview.moved]
      · rw [kind?, hview.node?_rest hid hne, kind?]
    rw [hkind]
    rw [hview.isLive_eq] at hlive
    exact h.kind?_eq hbase hlive (Bool.eq_false_iff.mpr hunmarked)

/-- Taking a symbol out of its expression keeps a tree up to date. -/
theorem detach (h : UpToDate base tree) {symbol : Symbol} (hsymbol : symbol ≠ .start)
    (hid : tree.node? id = some ⟨some expression, .symbol symbol⟩) :
    UpToDate base (tree.detach id expression) := by
  obtain ⟨owner, items, hexpression, -⟩ := h.wellFormed.listed hid
  have hview := relisting_detach hid hexpression
  have hother := h.wellFormed.detach hid hsymbol hexpression
  rw [Tree.detach] at hview hother ⊢
  exact h.relist hview hother (by simp) (by simp)

/-- Moving a symbol keeps a tree up to date. -/
theorem moveAfter (h : UpToDate base tree) {anchor : NodeId}
    (hdest : tree.destination anchor id = .ok expression) :
    UpToDate base (tree.moveAfter anchor id expression) := by
  obtain ⟨symbol, owner, items, hsymbol, -, -, hid, hexpression, hmem, -⟩ :=
    h.wellFormed.landing hdest
  have hreleased : UpToDate base (tree.released id) := by
    obtain ⟨parent, symbol, hid, hsymbol⟩ :=
      checkMovable_eq_ok_iff.mp (destination_eq_ok_iff.mp hdest).1
    rw [released, parent?_of_node? hid]
    cases parent with
    | none => exact h
    | some old => exact h.detach hsymbol hid
  have hview := relisting_attach hid hexpression hmem
  have hother := h.wellFormed.moveAfter hdest
  rw [Tree.attach] at hview
  rw [Tree.moveAfter, Tree.attach] at hother ⊢
  exact hreleased.relist hview hother (by simp) (by simp)

/-- What is left when nodes are removed keeps its marks. -/
theorem killAll (h : UpToDate base tree) {dead : List NodeId}
    (hpruned : Pruned tree (tree.killAll dead) id) (hother : (tree.killAll dead).WellFormed) :
    UpToDate base (tree.killAll dead) := by
  refine ⟨hother, h.nextId_le.trans (nextId_killAll tree dead).ge, ?_, ?_⟩
  · intro y parent hmarked hparent
    rw [isMarked_killAll] at hmarked ⊢
    obtain ⟨kind, hy⟩ := node?_of_parent? hparent
    exact h.isMarked_parent hmarked (parent?_of_node? ((hpruned y _).mp hy).1)
  · intro y hbase hlive hunmarked
    have hsame := hpruned.node?_eq hlive
    rw [isMarked_killAll] at hunmarked
    rw [isLive, hsame] at hlive
    rw [kind?, hsame]
    exact h.kind?_eq hbase hlive hunmarked

/-- Deleting a symbol keeps a tree up to date. -/
theorem delete (h : UpToDate base tree) {dead : List NodeId}
    (hdel : tree.deletion id = .ok (expression, dead)) :
    UpToDate base ((tree.detach id expression).killAll dead) := by
  obtain ⟨symbol, owner, items, hsymbol, hid, hexpression, hpruned⟩ :=
    h.wellFormed.pruned_of_deletion hdel
  exact (h.detach hsymbol hid).killAll hpruned (h.wellFormed.delete hdel)

end UpToDate

/-- However a tree is changed, it is up to date but for its marks. -/
theorem lasting_upToDate (base : Tree) : Lasting (UpToDate base) where
  wellFormed h := h.wellFormed
  pushSymbol stroke h := h.pushSymbol stroke
  moveAfter h hdest := h.moveAfter hdest
  delete h hdel := h.delete hdel

/-! ## Subtrees without marks -/

namespace UpToDate

/-- Everything inside a node without a mark is what it was. -/
theorem inside_unmarked (h : UpToDate base tree) (hbase : base.WellFormed)
    (hold : base.isLive id = true) (hunmarked : tree.isMarked id = false) {y : NodeId}
    (hinside : tree.Inside y id) (hlive : tree.isLive y = true) :
    base.isLive y = true ∧ tree.kind? y = base.kind? y := by
  have hplain : ∀ {y}, tree.Inside y id → tree.isMarked y = false := fun hinside => by
    rw [Bool.eq_false_iff] at hunmarked ⊢
    exact fun hmarked => hunmarked (h.isMarked_of_inside hmarked hinside)
  -- downwards from the node: what is directly below something which is the same was there before
  induction hinside using Relation.ReflTransGen.head_induction_on with
  | refl => exact ⟨hold, h.kind?_eq hold hlive hunmarked⟩
  | @head y parent hstep hup ih =>
    obtain ⟨node, hnode⟩ := isLive_iff.mp ((h.wellFormed.grounded hlive).up hstep).isLive
    obtain ⟨hparent, hsame⟩ := ih (isLive_iff.mpr ⟨node, hnode⟩)
    obtain ⟨node', hnode'⟩ := isLive_iff.mp hparent
    have hbelow : y ∈ node'.below := by
      rw [kind?_of_node? hnode, kind?_of_node? hnode', Option.some.injEq] at hsame
      rw [Node.below, ← hsame]
      exact (h.wellFormed.mem_below_iff hnode).mpr hstep
    obtain ⟨kind, hy⟩ := node?_of_parent? ((hbase.mem_below_iff hnode').mp hbelow)
    have hyLive := isLive_iff.mpr ⟨_, hy⟩
    exact ⟨hyLive, h.kind?_eq hyLive hlive (hplain (.child hstep hup))⟩

/-- A node without a mark has the descendants which it had, and all of them are what they were. -/
theorem descendants_unmarked (h : UpToDate base tree) (hbase : base.WellFormed)
    (hold : base.isLive id = true) (hlive : tree.isLive id = true)
    (hunmarked : tree.isMarked id = false) :
    ∃ ids, base.descendants id = .ok ids ∧ tree.descendants id = .ok ids ∧
      ∀ y ∈ ids, tree.isLive y = true ∧ tree.kind? y = base.kind? y := by
  obtain ⟨node, hnode⟩ := isLive_iff.mp hlive
  obtain ⟨ids, hids, hmem⟩ := h.wellFormed.descendants_eq hnode
  refine ⟨ids, ?_, hids, fun y hy => ?_⟩
  · refine (h.wellFormed.descendants_congr hbase (fun y node hy hinside => ?_) hlive).trans hids
    obtain ⟨hyOld, hsame⟩ := h.inside_unmarked hbase hold hunmarked hinside
      (isLive_iff.mpr ⟨node, hy⟩)
    obtain ⟨node', hy'⟩ := isLive_iff.mp hyOld
    rw [kind?_of_node? hy, kind?_of_node? hy', Option.some.injEq] at hsame
    exact ⟨node', hy', by rw [Node.below, Node.below, hsame]⟩
  · obtain ⟨hyLive, hinside⟩ := (hmem y).mp hy
    exact ⟨hyLive, (h.inside_unmarked hbase hold hunmarked hinside hyLive).2⟩

end UpToDate

/-! ## Taking the marks -/

/-- The marked nodes are those which are live and have a mark. -/
theorem mem_markedNodes : id ∈ tree.markedNodes ↔
    tree.isLive id = true ∧ tree.isMarked id = true := by
  unfold markedNodes
  rw [List.mem_filter, List.mem_range, Bool.and_eq_true]
  exact and_iff_right_of_imp fun h => lt_nextId_of_isMarked h.2

/-- The marked nodes are listed in the order of their names. -/
theorem pairwise_markedNodes (tree : Tree) : tree.markedNodes.Pairwise (· < ·) :=
  List.pairwise_lt_range.filter _

/-- Without its marks a tree has no marked nodes. -/
theorem markedNodes_unmark (tree : Tree) : tree.unmark.markedNodes = [] := by
  refine List.eq_nil_iff_forall_not_mem.mpr fun id hid => ?_
  have hmarked := (mem_markedNodes.mp hid).2
  rw [isMarked_unmark] at hmarked
  cases hmarked

/-- Taking the marked nodes answers them and takes the marks away. -/
theorem run_takeMarked (tree : Tree) :
    takeMarked.run tree = .ok tree.markedNodes tree.unmark :=
  rfl

/-- Where nothing is marked there are no marks to be taken. -/
theorem run_takeMarked_unmark (tree : Tree) :
    takeMarked.run tree.unmark = .ok [] tree.unmark := by
  have hunmark : tree.unmark.unmark = tree.unmark := by
    simp [unmark, Function.comp_def]
  rw [run_takeMarked, markedNodes_unmark, hunmark]

end Tree

/-! ## Sessions -/

namespace Editor

variable {editor : Editor}

/-- Take the marks for layout, go on without starting again, and take the marks again. A node which
is live both times and is not among the marked ones then has the same descendants as before, in the
same order, and each of them is the same symbol or the expression with the same list. The marked
nodes come in ascending order, are live, and with a node come all nodes above it. Directly
afterwards nothing is marked. -/
theorem Reachable.layout_by_need (h : editor.Reachable) {steps : List Step}
    (hclears : ∀ step ∈ steps, step.clears = false)
    (htakes : ∀ step ∈ steps, step.takesMarks = false) :
    let first := (Editor.onTree Tree.takeMarked).after editor
    let later := first.session steps
    ∃ marked final, Tree.takeMarked.run later.tree = .ok marked final ∧
      (∀ id, first.tree.isLive id = true → later.tree.isLive id = true → id ∉ marked →
        ∃ ids, first.tree.descendants id = .ok ids ∧ later.tree.descendants id = .ok ids ∧
          ∀ y ∈ ids, later.tree.isLive y = true ∧ later.tree.kind? y = first.tree.kind? y) ∧
      marked.Pairwise (· < ·) ∧
      (∀ id ∈ marked, later.tree.isLive id = true ∧
        ∀ outer, later.tree.Inside id outer → outer ∈ marked) ∧
      Tree.takeMarked.run final = .ok [] final := by
  intro first later
  have hfirst : Tree.UpToDate first.tree first.tree := h.wellFormed.upToDate
  have hlater : Tree.UpToDate first.tree later.tree := by
    refine (Tree.lasting_upToDate first.tree).session hfirst hclears fun step hstep htake => ?_
    rw [htakes step hstep] at htake
    cases htake
  refine ⟨_, _, later.tree.run_takeMarked, fun id hold hlive hmem => ?_,
    later.tree.pairwise_markedNodes, fun id hid => ?_, later.tree.run_takeMarked_unmark⟩
  · refine hlater.descendants_unmarked hfirst.wellFormed hold hlive ?_
    rw [Tree.mem_markedNodes, and_iff_right hlive] at hmem
    exact Bool.eq_false_iff.mpr hmem
  · obtain ⟨hlive, hmarked⟩ := Tree.mem_markedNodes.mp hid
    refine ⟨hlive, fun outer hinside => Tree.mem_markedNodes.mpr ?_⟩
    exact ⟨((hlater.wellFormed.grounded hlive).of_inside hinside).isLive,
      hlater.isMarked_of_inside hmarked hinside⟩

/-- When a fraction is moved behind a new symbol, only the root is marked, and the fraction with its
numerator and denominator is what it was. -/
theorem layout_by_need_moved :
    let editor := session [.own (.insertChar '/'), .own (.insertChar 'x')] (.new {})
    let steps := [.own (.setCursor home), .own (.insertChar 'y'), .onTree (.insertAfter 8 2)]
    let first := (Editor.onTree Tree.takeMarked).after editor
    let later := first.session steps
    editor.Reachable ∧ (∀ step ∈ steps, step.clears = false) ∧
      (∀ step ∈ steps, step.takesMarks = false) ∧ first.tree.items Tree.root = .ok [1, 2] ∧
      later.tree.items Tree.root = .ok [1, 8, 2] ∧ later.tree.markedNodes = [Tree.root] ∧
      ∃ ids, 7 ∈ ids ∧ first.tree.descendants 2 = .ok ids ∧ later.tree.descendants 2 = .ok ids ∧
        ∀ y ∈ ids, later.tree.isLive y = true ∧ later.tree.kind? y = first.tree.kind? y := by
  intro editor steps first later
  have hreach : editor.Reachable := (Reachable.new {}).session _
  have hclears : ∀ step ∈ steps, step.clears = false := by simp [steps, Step.clears]
  have htakes : ∀ step ∈ steps, step.takesMarks = false := by simp [steps, Step.takesMarks]
  have hmarked : later.tree.markedNodes = [Tree.root] := by decide +kernel
  obtain ⟨marked, final, hrun, hsame, -⟩ := Reachable.layout_by_need hreach hclears htakes
  rw [Tree.run_takeMarked, hmarked, EStateM.Result.ok.injEq] at hrun
  obtain ⟨ids, hids, hrest⟩ := hsame 2 (by decide +kernel) (by decide +kernel) (by
    rw [← hrun.1]
    decide)
  refine ⟨hreach, hclears, htakes, by decide +kernel, by decide +kernel, hmarked, ids, ?_, hids,
    hrest⟩
  have hfound : first.tree.descendants 2 = .ok [2, 3, 4, 7, 5, 6] := by decide +kernel
  rw [hfound, Except.ok.injEq] at hids
  rw [← hids]
  decide

end Editor

end FormulaEditor
