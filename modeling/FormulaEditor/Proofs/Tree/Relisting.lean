import FormulaEditor.Proofs.Tree.WellFormed

/-!
# Moving one symbol

Taking a symbol out of an expression and putting one in change the parent of the symbol and the
list of the expression, and nothing else (`Tree.Relisting`). `Tree.Relisting.wellFormed` says once
when such a change keeps a tree well-formed. `Tree.WellFormed.detach` and `Tree.WellFormed.attach`
are its two uses, and a move is one after the other. What all these changes have in common is that
the nodes stay what they are and that only one of them gets another parent (`Tree.Moved`).
-/

set_option autoImplicit false

namespace FormulaEditor.Tree

/-! ## Lists with one item more -/

/-- Behind the first place of the anchor there is room for a symbol. -/
theorem spliceAfter_append {anchor id : NodeId} {front back : List NodeId} (h : anchor ∉ front) :
    spliceAfter anchor id (front ++ anchor :: back) = front ++ anchor :: id :: back := by
  induction front with
  | nil => simp [spliceAfter]
  | cons item front ih =>
    rw [List.mem_cons, not_or] at h
    rw [List.cons_append, spliceAfter, if_neg (Ne.symm h.1), ih h.2]
    rfl

/-- Putting an item in adds this item and no other. -/
theorem spliceAfter_perm {anchor id : NodeId} {items : List NodeId} (h : anchor ∈ items) :
    List.Perm (spliceAfter anchor id items) (id :: items) := by
  obtain ⟨front, back, rfl, hfront⟩ := List.eq_append_cons_of_mem h
  rw [spliceAfter_append hfront, List.append_cons]
  refine List.perm_middle.trans (List.Perm.cons id ?_)
  rw [← List.append_cons]

/-- The first item of a list stays the first when another one is put in after some item. -/
theorem spliceAfter_cons (anchor id first : NodeId) (others : List NodeId) :
    ∃ others', spliceAfter anchor id (first :: others) = first :: others' := by
  rw [spliceAfter]
  split
  · exact ⟨_, rfl⟩
  · exact ⟨_, rfl⟩

/-! ## Change of one parent and one list -/

variable {tree other : Tree} {id expression : NodeId} {owner before after : Option NodeId}
  {items items' : List NodeId} {symbol : Symbol}

/-- Where the parents below some node are the same, what was inside the node still is. -/
theorem Inside.of_parents {y : NodeId} (same : ∀ z, z ≠ id → other.parent? z = tree.parent? z)
    (h : other.Inside y id) : tree.Inside y id := by
  induction h using Relation.ReflTransGen.head_induction_on with
  | refl => exact Inside.refl _
  | @head z parent hstep _ ih =>
    by_cases hz : z = id
    · rw [hz]
      exact Inside.refl _
    · rw [same z hz] at hstep
      exact Inside.child hstep ih

/-- Where the parents below some node are the same, the same nodes are inside the node. -/
theorem inside_iff_of_parents {y : NodeId}
    (same : ∀ z, z ≠ id → other.parent? z = tree.parent? z) :
    other.Inside y id ↔ tree.Inside y id :=
  ⟨Inside.of_parents same, Inside.of_parents fun z hz => (same z hz).symm⟩

/-- One tree differs from another one only by the parent of one symbol, which changes from or to
some expression, and by the list of this expression. -/
structure Relisting (tree other : Tree) (id expression : NodeId) (symbol : Symbol)
    (before after owner : Option NodeId) (items items' : List NodeId) : Prop where
  moved : tree.node? id = some ⟨before, .symbol symbol⟩
  listing : tree.node? expression = some ⟨owner, .expression items⟩
  view : ∀ y, other.node? y = if y = id then some ⟨after, .symbol symbol⟩
    else if y = expression then some ⟨owner, .expression items'⟩ else tree.node? y
  before_eq : ∀ parent, before = some parent → parent = expression
  after_eq : ∀ parent, after = some parent → parent = expression ∧ id ∈ items'
  /-- The other symbols of the list stay in it. -/
  kept : ∀ y, y ≠ id → y ∈ items → y ∈ items'

namespace Relisting

variable (h : Relisting tree other id expression symbol before after owner items items')

include h

/-- The moved symbol is not the expression. -/
theorem expression_ne : expression ≠ id := by
  rintro rfl
  have hmoved := h.moved
  rw [h.listing] at hmoved
  cases hmoved

/-- The symbol which is moved is the same symbol under its new parent. -/
theorem node?_moved : other.node? id = some ⟨after, .symbol symbol⟩ := by
  rw [h.view, if_pos rfl]

/-- The expression has its new list. -/
theorem node?_listing : other.node? expression = some ⟨owner, .expression items'⟩ := by
  rw [h.view, if_neg h.expression_ne, if_pos rfl]

/-- All other nodes are as they were. -/
theorem node?_rest {y : NodeId} (hid : y ≠ id) (hexpression : y ≠ expression) :
    other.node? y = tree.node? y := by
  rw [h.view, if_neg hid, if_neg hexpression]

/-- Symbols which are not moved are as they were. -/
theorem symbol_iff {y : NodeId} {parent : Option NodeId} {s : Symbol} (hid : y ≠ id) :
    other.node? y = some ⟨parent, .symbol s⟩ ↔ tree.node? y = some ⟨parent, .symbol s⟩ := by
  by_cases hexpression : y = expression
  · rw [hexpression, h.node?_listing, h.listing]
    simp
  · rw [h.node?_rest hid hexpression]

/-- A symbol stays the same symbol, if perhaps somewhere else. -/
theorem exists_symbol_iff {y : NodeId} {s : Symbol} :
    (∃ parent, other.node? y = some ⟨parent, .symbol s⟩) ↔
      ∃ parent, tree.node? y = some ⟨parent, .symbol s⟩ := by
  by_cases hid : y = id
  · rw [hid, h.node?_moved, h.moved]
    simp
  · simp only [h.symbol_iff hid]

/-- Expressions stay expressions with the same owners. -/
theorem exists_expression_iff {y : NodeId} {owner' : Option NodeId} :
    (∃ list, other.node? y = some ⟨owner', .expression list⟩) ↔
      ∃ list, tree.node? y = some ⟨owner', .expression list⟩ := by
  by_cases hid : y = id
  · rw [hid, h.node?_moved, h.moved]
    simp
  · by_cases hexpression : y = expression
    · rw [hexpression, h.node?_listing, h.listing]
      simp
    · rw [h.node?_rest hid hexpression]

/-- Symbols which are not moved stay in their expressions. -/
theorem mem_of_mem {y z : NodeId} {owner' : Option NodeId} {list : List NodeId} (hz : z ≠ id)
    (hy : tree.node? y = some ⟨owner', .expression list⟩) (hmem : z ∈ list) :
    ∃ list', other.node? y = some ⟨owner', .expression list'⟩ ∧ z ∈ list' := by
  by_cases hexpression : y = expression
  · rw [hexpression, h.listing] at hy
    cases hy
    exact ⟨items', hexpression ▸ h.node?_listing, h.kept z hz hmem⟩
  · have hid : y ≠ id := by
      rintro rfl
      rw [h.moved] at hy
      cases hy
    exact ⟨list, by rw [h.node?_rest hid hexpression, hy], hmem⟩

/-- Nodes which are not moved keep their parents. -/
theorem parent?_eq {y : NodeId} (hid : y ≠ id) : other.parent? y = tree.parent? y := by
  by_cases hexpression : y = expression
  · rw [hexpression, parent?_of_node? h.node?_listing, parent?_of_node? h.listing]
  · unfold parent?
    rw [h.node?_rest hid hexpression]

/-- No node becomes live or dies. -/
theorem isLive_eq (y : NodeId) : other.isLive y = tree.isLive y := by
  unfold isLive
  rw [h.view]
  by_cases hid : y = id
  · rw [if_pos hid, hid, h.moved]
    rfl
  · rw [if_neg hid]
    by_cases hexpression : y = expression
    · rw [if_pos hexpression, hexpression, h.listing]
      rfl
    · rw [if_neg hexpression]

/-- The lists of the other expressions are as they have to be. -/
theorem lists_rest {y : NodeId} {list : List NodeId} (hy : y ≠ expression)
    (hlists : tree.Lists y list) : other.Lists y list := by
  have hkeep : ∀ {z s}, tree.node? z = some ⟨some y, .symbol s⟩ →
      other.node? z = some ⟨some y, .symbol s⟩ := by
    intro z s hz
    refine (h.symbol_iff ?_).mpr hz
    rintro rfl
    rw [h.moved] at hz
    cases hz
    exact hy (h.before_eq y rfl)
  obtain ⟨nodup, first, others, rfl, hfirst, hothers⟩ := hlists
  refine ⟨nodup, first, others, rfl, hkeep hfirst, fun z hz => ?_⟩
  obtain ⟨s, hs, hnode⟩ := hothers z hz
  exact ⟨s, hs, hkeep hnode⟩

/-- If the way up from the moved symbol ends, so does every other one: up to the moved symbol it is
the old one. -/
theorem grounded {y : NodeId} (hground : tree.Inside y id → other.Grounded id)
    (hy : tree.Grounded y) : other.Grounded y := by
  have hnode : ∀ {z node}, z ≠ id → tree.node? z = some node →
      ∃ node', other.node? z = some node' ∧ node'.parent = node.parent := by
    intro z node hz hlive
    obtain ⟨node', hnode'⟩ := isLive_iff.mp ((h.isLive_eq z).trans (isLive_iff.mpr ⟨node, hlive⟩))
    refine ⟨node', hnode', ?_⟩
    rw [← parent?_of_node? hnode', ← parent?_of_node? hlive]
    exact h.parent?_eq hz
  -- at the moved symbol the way changes, and from there it ends as `hground` says
  induction hy with
  | @orphan z node live top =>
    by_cases hz : z = id
    · exact hz ▸ hground (hz ▸ Inside.refl z)
    · obtain ⟨node', hlive, hparent⟩ := hnode hz live
      exact .orphan hlive (hparent.trans top)
  | @child z parent node live step _ ih =>
    by_cases hz : z = id
    · exact hz ▸ hground (hz ▸ Inside.refl z)
    · obtain ⟨node', hlive, hparent⟩ := hnode hz live
      have hup : tree.parent? z = some parent := (parent?_of_node? live).trans step
      exact .child hlive (hparent.trans step) (ih fun hinside => hground (Inside.child hup hinside))

/-- A tree in which one symbol has been moved is well-formed if the new list is as it has to be,
and the way up from the symbol ends. -/
theorem wellFormed (htree : tree.WellFormed) (hlists : other.Lists expression items')
    (hground : other.Grounded id) : other.WellFormed where
  root := h.exists_expression_iff.mpr htree.root
  lists := by
    intro y owner' list hy
    by_cases hexpression : y = expression
    · rw [hexpression, h.node?_listing] at hy
      cases hy
      exact hexpression ▸ hlists
    · have hid : y ≠ id := by
        rintro rfl
        rw [h.node?_moved] at hy
        cases hy
      rw [h.node?_rest hid hexpression] at hy
      exact h.lists_rest hexpression (htree.lists hy)
  listed := by
    intro y parent s hy
    by_cases hid : y = id
    · rw [hid, h.node?_moved] at hy
      cases hy
      obtain ⟨rfl, hmem⟩ := h.after_eq parent rfl
      exact ⟨owner, items', h.node?_listing, hid ▸ hmem⟩
    · obtain ⟨owner', list, hparent, hmem⟩ := htree.listed ((h.symbol_iff hid).mp hy)
      obtain ⟨list', hparent', hmem'⟩ := h.mem_of_mem hid hparent hmem
      exact ⟨owner', list', hparent', hmem'⟩
  slots := by
    intro y parent s hy
    obtain ⟨parent', hy'⟩ := h.exists_symbol_iff.mp ⟨parent, hy⟩
    obtain ⟨nodup, hslots⟩ := htree.slots hy'
    exact ⟨nodup, fun slot hslot => h.exists_expression_iff.mpr (hslots slot hslot)⟩
  owned := by
    intro y owner' list hy hroot
    obtain ⟨list', hy'⟩ := h.exists_expression_iff.mp ⟨list, hy⟩
    obtain ⟨above, parent, s, rfl, habove, hslot⟩ := htree.owned hy' hroot
    obtain ⟨parent', habove'⟩ := h.exists_symbol_iff.mpr ⟨parent, habove⟩
    exact ⟨above, parent', s, rfl, habove', hslot⟩
  grounded := by
    intro y hlive
    rw [h.isLive_eq] at hlive
    exact h.grounded (fun _ => hground) (htree.grounded hlive)

end Relisting

/-! ## What every move has in common -/

/-- Two trees have the same symbols and the same expressions, and only one symbol may stand
somewhere else. -/
structure Moved (tree other : Tree) (id : NodeId) : Prop where
  symbol_iff : ∀ {y : NodeId} {s : Symbol}, (∃ parent, other.node? y = some ⟨parent, .symbol s⟩) ↔
    ∃ parent, tree.node? y = some ⟨parent, .symbol s⟩
  expression_iff : ∀ {y : NodeId} {above : Option NodeId},
    (∃ list, other.node? y = some ⟨above, .expression list⟩) ↔
      ∃ list, tree.node? y = some ⟨above, .expression list⟩
  parent?_eq : ∀ {y : NodeId}, y ≠ id → other.parent? y = tree.parent? y

/-- A symbol which changes its list has moved. -/
theorem Relisting.toMoved (h : Relisting tree other id expression symbol before after owner items
    items') : Moved tree other id :=
  ⟨h.exists_symbol_iff, h.exists_expression_iff, h.parent?_eq⟩

namespace Moved

/-- A symbol which stays where it is has moved nowhere. -/
theorem refl (tree : Tree) (id : NodeId) : Moved tree tree id :=
  ⟨Iff.rfl, Iff.rfl, fun _ => rfl⟩

/-- A symbol which has moved twice has moved. -/
theorem trans {middle : Tree} (h : Moved tree middle id) (h' : Moved middle other id) :
    Moved tree other id where
  symbol_iff := h'.symbol_iff.trans h.symbol_iff
  expression_iff := h'.expression_iff.trans h.expression_iff
  parent?_eq hy := (h'.parent?_eq hy).trans (h.parent?_eq hy)

variable (h : Moved tree other id)

include h

/-- Where a symbol has moved the same nodes are live. -/
theorem isLive_iff {y : NodeId} : other.isLive y = true ↔ tree.isLive y = true := by
  have hforms : ∀ t : Tree, t.isLive y = true ↔
      (∃ s parent, t.node? y = some ⟨parent, .symbol s⟩) ∨
        ∃ above list, t.node? y = some ⟨above, .expression list⟩ := by
    intro t
    rw [Tree.isLive_iff]
    constructor
    · rintro ⟨⟨parent, list | s⟩, hy⟩
      · exact Or.inr ⟨parent, list, hy⟩
      · exact Or.inl ⟨s, parent, hy⟩
    · rintro (⟨s, parent, hy⟩ | ⟨above, list, hy⟩)
      · exact ⟨_, hy⟩
      · exact ⟨_, hy⟩
  simp only [hforms, h.symbol_iff, h.expression_iff]

/-- The other symbols stand where they stood. -/
theorem node?_symbol {y : NodeId} {parent : Option NodeId} {s : Symbol} (hne : y ≠ id)
    (hy : tree.node? y = some ⟨parent, .symbol s⟩) : other.node? y = some ⟨parent, .symbol s⟩ := by
  obtain ⟨parent', hy'⟩ := h.symbol_iff.mpr ⟨parent, hy⟩
  have hparent := h.parent?_eq hne
  rw [parent?_of_node? hy, parent?_of_node? hy'] at hparent
  cases hparent
  exact hy'

/-- What was inside a node still is, unless it is inside the symbol which has been moved. -/
theorem inside_or {y outer : NodeId} (hinside : tree.Inside y outer) :
    other.Inside y outer ∨ other.Inside y id := by
  induction hinside using Relation.ReflTransGen.head_induction_on with
  | refl => exact Or.inl (Inside.refl _)
  | @head y parent hstep _ ih =>
    by_cases hy : y = id
    · rw [hy]
      exact Or.inr (Inside.refl _)
    · rw [← h.parent?_eq hy] at hstep
      rcases ih with hup | hup
      · exact Or.inl (Inside.child hstep hup)
      · exact Or.inr (Inside.child hstep hup)

/-- The same nodes are inside the moved symbol as before. -/
theorem inside_iff {y : NodeId} : other.Inside y id ↔ tree.Inside y id :=
  inside_iff_of_parents fun _ hz => h.parent?_eq hz

end Moved

/-! ## Out of an expression and into one -/

variable {anchor : NodeId}

/-- A symbol with a new parent and an expression with a new list are found under their names, and
every other node is as before. -/
theorem node?_relisted {change : List NodeId → List NodeId}
    (hid : tree.node? id = some ⟨before, .symbol symbol⟩)
    (hexpression : tree.node? expression = some ⟨owner, .expression items⟩) (y : NodeId) :
    (((tree.update expression (.mapItems change)).update id (.withParent after)).mark
      expression).node? y = if y = id then some ⟨after, .symbol symbol⟩
        else if y = expression then some ⟨owner, .expression (change items)⟩ else tree.node? y := by
  have hne : id ≠ expression := by
    rintro rfl
    rw [hid] at hexpression
    cases hexpression
  rw [node?_mark, node?_update, node?_update]
  by_cases hy : y = id
  · rw [if_pos hy, if_pos hy, hy, if_neg hne, hid]
    rfl
  · rw [if_neg hy, if_neg hy]
    by_cases hy' : y = expression
    · rw [if_pos hy', if_pos hy', hy', hexpression]
      rfl
    · rw [if_neg hy', if_neg hy']

/-- Taking a symbol out changes its parent and the list in which it was. -/
theorem relisting_detach (hid : tree.node? id = some ⟨some expression, .symbol symbol⟩)
    (hexpression : tree.node? expression = some ⟨owner, .expression items⟩) :
    Relisting tree (tree.detach id expression) id expression symbol (some expression) none owner
      items (items.erase id) where
  moved := hid
  listing := hexpression
  view := node?_relisted hid hexpression
  before_eq := by
    rintro _ ⟨⟩
    rfl
  after_eq := nofun
  kept := fun y hy hmem => (List.mem_erase_of_ne hy).mpr hmem

/-- Taking a symbol which is no start out of its expression keeps a tree well-formed. -/
theorem WellFormed.detach (h : tree.WellFormed)
    (hid : tree.node? id = some ⟨some expression, .symbol symbol⟩) (hsymbol : symbol ≠ .start)
    (hexpression : tree.node? expression = some ⟨owner, .expression items⟩) :
    (tree.detach id expression).WellFormed := by
  have hview := relisting_detach hid hexpression
  refine hview.wellFormed h ?_ (.orphan hview.node?_moved rfl)
  obtain ⟨nodup, first, others, rfl, hfirst, hothers⟩ := h.lists hexpression
  have hne : first ≠ id := by
    rintro rfl
    rw [hfirst] at hid
    cases hid
    exact hsymbol rfl
  have herase : (first :: others).erase id = first :: others.erase id := by
    rw [List.erase_cons, if_neg (by simpa using hne)]
  refine ⟨nodup.erase id, first, others.erase id, herase, (hview.symbol_iff hne).mpr hfirst, ?_⟩
  intro z hz
  have hz' : z ≠ id := by
    rintro rfl
    exact List.Nodup.not_mem_erase (List.nodup_cons.mp nodup).2 hz
  obtain ⟨s, hs, hnode⟩ := hothers z (List.mem_of_mem_erase hz)
  exact ⟨s, hs, (hview.symbol_iff hz').mpr hnode⟩

/-- A symbol without a parent stands in no list. -/
theorem WellFormed.not_mem_of_orphan (h : tree.WellFormed)
    (hid : tree.node? id = some ⟨none, .symbol symbol⟩)
    (hexpression : tree.node? expression = some ⟨owner, .expression items⟩) : id ∉ items := by
  intro hmem
  obtain ⟨s, hs⟩ := h.node?_of_mem hexpression hmem
  rw [hid] at hs
  cases hs

/-- Putting a symbol in changes its parent and the list in which it is then. -/
theorem relisting_attach (hid : tree.node? id = some ⟨none, .symbol symbol⟩)
    (hexpression : tree.node? expression = some ⟨owner, .expression items⟩)
    (hanchor : anchor ∈ items) :
    Relisting tree (tree.attach anchor id expression) id expression symbol none (some expression)
      owner items (spliceAfter anchor id items) where
  moved := hid
  listing := hexpression
  view := node?_relisted hid hexpression
  before_eq := nofun
  after_eq := by
    rintro _ ⟨⟩
    exact ⟨rfl, (spliceAfter_perm hanchor).mem_iff.mpr List.mem_cons_self⟩
  kept := fun y _ hmem => (spliceAfter_perm hanchor).mem_iff.mpr (List.mem_cons_of_mem _ hmem)

/-- Putting a symbol which is no start into an expression which is not inside it keeps a tree
well-formed. -/
theorem WellFormed.attach (h : tree.WellFormed)
    (hid : tree.node? id = some ⟨none, .symbol symbol⟩) (hsymbol : symbol ≠ .start)
    (hexpression : tree.node? expression = some ⟨owner, .expression items⟩)
    (hanchor : anchor ∈ items) (hinside : ¬ tree.Inside expression id) :
    (tree.attach anchor id expression).WellFormed := by
  have hview := relisting_attach hid hexpression hanchor
  have hfresh := h.not_mem_of_orphan hid hexpression
  have hperm := @spliceAfter_perm _ id _ hanchor
  refine hview.wellFormed h ?_ (.child hview.node?_moved rfl ?_)
  · obtain ⟨nodup, first, others, rfl, hfirst, hothers⟩ := h.lists hexpression
    obtain ⟨others', hsplice⟩ := spliceAfter_cons anchor id first others
    rw [hsplice] at hperm ⊢
    have hne : first ≠ id := by
      rintro rfl
      exact hfresh List.mem_cons_self
    have nodup' : (first :: others').Nodup :=
      hperm.nodup_iff.mpr (List.nodup_cons.mpr ⟨hfresh, nodup⟩)
    refine ⟨nodup', first, others', rfl, (hview.symbol_iff hne).mpr hfirst, ?_⟩
    intro z hz
    by_cases hzid : z = id
    · rw [hzid]
      exact ⟨symbol, hsymbol, hview.node?_moved⟩
    · have hz' : z ∈ others := by
        have hmem := hperm.mem_iff.mp (List.mem_cons_of_mem first hz)
        simp only [List.mem_cons, hzid, false_or] at hmem
        rcases hmem with rfl | hmem
        · exact absurd hz (List.nodup_cons.mp nodup').1
        · exact hmem
      obtain ⟨s, hs, hnode⟩ := hothers z hz'
      exact ⟨s, hs, (hview.symbol_iff hzid).mpr hnode⟩
  · -- a way up from the expression through the symbol would be a way from it to the symbol
    exact hview.grounded (fun hcycle => absurd hcycle hinside)
      (h.grounded (isLive_iff.mpr ⟨_, hexpression⟩))

end FormulaEditor.Tree
