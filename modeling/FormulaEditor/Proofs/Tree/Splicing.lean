import FormulaEditor.Proofs.Tree.Invariance
import FormulaEditor.Proofs.Tree.Removal

/-!
# What a move does

A symbol is put after another one, the anchor, or the move is refused. Which of the reasons to refuse
it is the one that is told (`Tree.RefusesInsertion`) can be read off the tree before the move, and
without a reason the move is made. It is one splice (`Tree.Spliced`): wherever the symbol stood, its
old list loses it, and behind the anchor, whose place may have shifted, the new list has it once. A
move made twice does what it does once, since the symbol already stands where it is put.
-/

set_option autoImplicit false

namespace FormulaEditor.Tree

/-- A symbol which is no start. -/
def Movable (tree : Tree) (id : NodeId) : Prop :=
  ∃ parent symbol, tree.node? id = some ⟨parent, .symbol symbol⟩ ∧ symbol ≠ .start

/-- The reason for which `id` is not put in after `anchor`. What is put in is looked at before the
anchor, and the anchor itself before where it stands. -/
inductive RefusesInsertion (tree : Tree) (anchor id : NodeId) : Error → Prop
  | dead (gone : tree.node? id = none) : RefusesInsertion tree anchor id .nodeNotFound
  | expression {owner : Option NodeId} {items : List NodeId}
      (found : tree.node? id = some ⟨owner, .expression items⟩) :
      RefusesInsertion tree anchor id .invalidNode
  | start {parent : Option NodeId} (found : tree.node? id = some ⟨parent, .symbol .start⟩) :
      RefusesInsertion tree anchor id .invalidNode
  | deadAnchor (movable : tree.Movable id) (gone : tree.node? anchor = none) :
      RefusesInsertion tree anchor id .nodeNotFound
  | expressionAnchor {owner : Option NodeId} {items : List NodeId} (movable : tree.Movable id)
      (found : tree.node? anchor = some ⟨owner, .expression items⟩) :
      RefusesInsertion tree anchor id .invalidNode
  | cycle {parent : Option NodeId} {symbol : Symbol} (movable : tree.Movable id)
      (found : tree.node? anchor = some ⟨parent, .symbol symbol⟩)
      (inside : tree.Inside anchor id) : RefusesInsertion tree anchor id .cyclicInsert
  | orphan {symbol : Symbol} (movable : tree.Movable id)
      (found : tree.node? anchor = some ⟨none, .symbol symbol⟩)
      (outside : ¬tree.Inside anchor id) : RefusesInsertion tree anchor id .noParent

/-- One tree is another one in which a symbol has been put into an expression, directly after
another symbol, and taken out of where it was. -/
structure Spliced (tree other : Tree) (anchor id expression : NodeId) : Prop where
  /-- The symbol is the one which it was, and stands in the expression. -/
  moved : ∃ parent symbol, tree.node? id = some ⟨parent, .symbol symbol⟩ ∧
    other.node? id = some ⟨some expression, .symbol symbol⟩
  /-- The list of the expression is its old one without the symbol, which is then put in. -/
  listing : ∃ owner items front back, tree.node? expression = some ⟨owner, .expression items⟩ ∧
    items.erase id = front ++ anchor :: back ∧
    other.node? expression = some ⟨owner, .expression (front ++ anchor :: id :: back)⟩
  /-- The list in which the symbol was, if it is another one, is its old one without the symbol. -/
  left : ∀ old, tree.parent? id = some old → old ≠ expression → ∃ owner items,
    tree.node? old = some ⟨owner, .expression items⟩ ∧
    other.node? old = some ⟨owner, .expression (items.erase id)⟩
  /-- Everything inside the symbol is unchanged. -/
  inside : ∀ y, tree.Inside y id → y ≠ id → other.node? y = tree.node? y
  rest : ∀ y, y ≠ id → y ≠ expression → tree.parent? id ≠ some y → other.node? y = tree.node? y

variable {tree other again : Tree} {anchor id expression y : NodeId} {owner : Option NodeId}
  {items : List NodeId} {symbol : Symbol}

/-! ## Reasons to refuse -/

/-- A symbol which is no start may be moved. -/
theorem checkMovable_eq (h : tree.Movable id) : tree.checkMovable id = .ok () :=
  checkMovable_eq_ok_iff.mpr h

/-- For each of the reasons a move finds no place to go. -/
theorem RefusesInsertion.destination_eq (htree : tree.WellFormed) {error : Error}
    (h : tree.RefusesInsertion anchor id error) : tree.destination anchor id = .error error := by
  cases h with
  | dead gone =>
    rw [destination, checkMovable, Tree.symbol, node, gone]
    rfl
  | expression found =>
    rw [destination, checkMovable, Tree.symbol, node, found]
    rfl
  | start found =>
    rw [destination, checkMovable, symbol_of_node? found]
    rfl
  | deadAnchor movable gone =>
    rw [destination, checkMovable_eq movable, Tree.symbol, node, gone]
    rfl
  | expressionAnchor movable found =>
    rw [destination, checkMovable_eq movable, Tree.symbol, node, found]
    rfl
  | cycle movable found inside =>
    rw [destination, checkMovable_eq movable, symbol_of_node? found,
      (htree.contains_iff id anchor).mpr inside]
    rfl
  | orphan movable found outside =>
    rw [← htree.contains_iff, Bool.not_eq_true] at outside
    rw [destination, checkMovable_eq movable, symbol_of_node? found, outside, position, node, found]
    rfl

/-- Without a reason to refuse it a move goes to where the anchor stands. -/
theorem WellFormed.destination_cases (h : tree.WellFormed) (anchor id : NodeId) :
    (∃ error, tree.RefusesInsertion anchor id error) ∨
      ∃ expression, tree.parent? anchor = some expression ∧
        tree.destination anchor id = .ok expression := by
  cases hid : tree.node? id with
  | none => exact .inl ⟨_, .dead hid⟩
  | some node =>
    obtain ⟨parent, items | symbol⟩ := node
    · exact .inl ⟨_, .expression hid⟩
    by_cases hstart : symbol = .start
    · exact .inl ⟨_, .start (hstart ▸ hid)⟩
    have hmovable : tree.Movable id := ⟨parent, symbol, hid, hstart⟩
    cases hanchor : tree.node? anchor with
    | none => exact .inl ⟨_, .deadAnchor hmovable hanchor⟩
    | some node =>
      obtain ⟨above, items | found⟩ := node
      · exact .inl ⟨_, .expressionAnchor hmovable hanchor⟩
      by_cases hinside : tree.Inside anchor id
      · exact .inl ⟨_, .cycle hmovable hanchor hinside⟩
      cases above with
      | none => exact .inl ⟨_, .orphan hmovable hanchor hinside⟩
      | some expression =>
        have hfound := symbol_of_node? hanchor
        rw [← h.contains_iff, Bool.not_eq_true] at hinside
        exact .inr ⟨expression, parent?_of_node? hanchor, destination_eq_ok_iff.mpr
          ⟨checkMovable_eq hmovable, ⟨found, hfound⟩, hinside, h.exists_position hanchor⟩⟩

/-- A symbol is refused just for the first reason there is to refuse it. -/
theorem WellFormed.destination_eq_error_iff (h : tree.WellFormed) {error : Error} :
    tree.destination anchor id = .error error ↔ tree.RefusesInsertion anchor id error := by
  refine ⟨fun herror => ?_, RefusesInsertion.destination_eq h⟩
  obtain ⟨found, hrefuses⟩ | ⟨expression, -, hdest⟩ := h.destination_cases anchor id
  · rw [hrefuses.destination_eq h] at herror
    cases herror
    exact hrefuses
  · rw [hdest] at herror
    cases herror

/-! ## One splice -/

namespace WellFormed

/-- What is released is in no list any more. -/
theorem node?_released (h : tree.WellFormed) (hid : tree.Movable id)
    (hnode : tree.node? y = some ⟨owner, .expression items⟩) :
    (tree.released id).node? y = some ⟨owner, .expression (items.erase id)⟩ := by
  obtain ⟨parent, symbol, hid, -⟩ := hid
  have hne : y ≠ id := by
    rintro rfl
    rw [hid] at hnode
    cases hnode
  rw [Tree.released, parent?_of_node? hid]
  by_cases hparent : parent = some y
  · subst hparent
    exact (relisting_detach hid hnode).node?_listing
  · -- the symbol stands elsewhere or nowhere, and so not in this list
    have hmem : id ∉ items := by
      intro hmem
      obtain ⟨s, hs⟩ := h.node?_of_mem hnode hmem
      rw [hid] at hs
      cases hs
      exact hparent rfl
    rw [List.erase_of_not_mem hmem]
    cases parent with
    | none => exact hnode
    | some old =>
      obtain ⟨_, _, hold, -⟩ := h.listed hid
      have hne' : y ≠ old := by
        rintro rfl
        exact hparent rfl
      exact ((relisting_detach hid hold).node?_rest hne hne').trans hnode

/-- Releasing a symbol changes no node but the symbol and the expression in which it stood. -/
theorem node?_released_rest (h : tree.WellFormed) (hid : tree.Movable id) (hne : y ≠ id)
    (hparent : tree.parent? id ≠ some y) : (tree.released id).node? y = tree.node? y := by
  obtain ⟨parent, symbol, hid, -⟩ := hid
  rw [parent?_of_node? hid] at hparent
  rw [Tree.released, parent?_of_node? hid]
  cases parent with
  | none => rfl
  | some old =>
    obtain ⟨_, _, hold, -⟩ := h.listed hid
    refine (relisting_detach hid hold).node?_rest hne ?_
    rintro rfl
    exact hparent rfl

/-- A move is one splice. -/
theorem spliced_moveAfter (h : tree.WellFormed)
    (hdest : tree.destination anchor id = .ok expression) :
    Spliced tree (tree.moveAfter anchor id expression) anchor id expression := by
  have hmovable : tree.Movable id := checkMovable_eq_ok_iff.mp (destination_eq_ok_iff.mp hdest).1
  obtain ⟨symbol, owner, _, -, -, hmoved, hid, hexpression, hmem, houtside⟩ := h.landing hdest
  have hview := relisting_attach hid hexpression hmem
  obtain ⟨parent, hid'⟩ := hmoved.symbol_iff.mp ⟨none, hid⟩
  obtain ⟨items, hexpression'⟩ := hmoved.expression_iff.mp ⟨_, hexpression⟩
  rw [h.node?_released hmovable hexpression'] at hexpression
  cases hexpression
  obtain ⟨front, back, hitems, hfront⟩ := List.eq_append_cons_of_mem hmem
  have hrest : ∀ y, y ≠ id → y ≠ expression → tree.parent? id ≠ some y →
      (tree.moveAfter anchor id expression).node? y = tree.node? y := fun y hne hne' hparent =>
    (hview.node?_rest hne hne').trans (h.node?_released_rest hmovable hne hparent)
  refine ⟨⟨parent, symbol, hid', hview.node?_moved⟩,
    ⟨owner, items, front, back, hexpression', hitems, ?_⟩, fun old hold hne => ?_,
    fun y hinside hne => hrest y hne ?_ fun hparent => ?_, hrest⟩
  · rw [← spliceAfter_append hfront, ← hitems]
    exact hview.node?_listing
  · rw [parent?_of_node? hid'] at hold
    subst hold
    obtain ⟨above, list, hnode, -⟩ := h.listed hid'
    have hne' : old ≠ id := by
      rintro rfl
      rw [hid'] at hnode
      cases hnode
    exact ⟨above, list, hnode, (hview.node?_rest hne' hne).trans (h.node?_released hmovable hnode)⟩
  · rintro rfl
    exact houtside hinside
  · exact (h.grounded (isLive_iff.mpr ⟨_, hid'⟩)).acyclic hparent hinside

end WellFormed

/-- A splice of what already stands where it is put changes nothing. -/
theorem Spliced.eq_of_twice (hother : other.WellFormed) (h : Spliced tree other anchor id expression)
    (htwice : Spliced other again anchor id expression) (y : NodeId) :
    again.node? y = other.node? y := by
  obtain ⟨-, symbol, -, hid⟩ := h.moved
  obtain ⟨owner, -, front, back, -, -, hexpression⟩ := h.listing
  obtain ⟨_, _, hid', hmoved⟩ := htwice.moved
  obtain ⟨_, _, front', back', hexpression', hitems, hlisting⟩ := htwice.listing
  rw [hid] at hid'
  cases hid'
  rw [hexpression] at hexpression'
  cases hexpression'
  by_cases hy : y = id
  · rw [hy, hmoved, hid]
  by_cases hy' : y = expression
  · -- the symbol is taken out from behind the anchor and put in there again
    have nodup := (hother.lists hexpression).nodup
    rw [List.append_cons, List.nodup_middle, List.nodup_cons] at nodup
    obtain ⟨hfresh, nodup⟩ := nodup
    rw [List.append_assoc, List.singleton_append, List.nodup_middle, List.nodup_cons] at nodup
    obtain ⟨hfront, hback⟩ := not_or.mp (List.mem_append.not.mp nodup.1)
    rw [List.append_cons, List.erase_append_right _ fun hmem => hfresh (List.mem_append_left _ hmem),
      List.erase_cons_head, List.append_assoc, List.singleton_append] at hitems
    obtain ⟨rfl, -, rfl⟩ := (List.append_cons_inj_of_notMem hfront hback).mp hitems
    rw [hy', hlisting, hexpression]
  · refine htwice.rest y hy hy' ?_
    rw [parent?_of_node? hid]
    rintro ⟨⟩
    exact hy' rfl

/-- A move which has been made can be made again, to the same place. -/
theorem WellFormed.destination_moveAfter (h : tree.WellFormed)
    (hdest : tree.destination anchor id = .ok expression) :
    (tree.moveAfter anchor id expression).destination anchor id = .ok expression := by
  obtain ⟨hmovable, -, hcontains, index, hposition⟩ := destination_eq_ok_iff.mp hdest
  obtain ⟨_, symbol, hid, hsymbol⟩ := checkMovable_eq_ok_iff.mp hmovable
  obtain ⟨_, _, hexpression, hmem⟩ := exists_items_of_position hposition
  obtain ⟨found, hanchor⟩ := h.node?_of_mem hexpression hmem
  obtain ⟨hmoved, -, -⟩ := h.moved_moveAfter hdest
  have hafter := h.moveAfter hdest
  have houtside : ¬tree.Inside anchor id := by
    rw [← h.contains_iff, hcontains]
    exact Bool.false_ne_true
  have hne : anchor ≠ id := by
    rintro rfl
    exact houtside (Inside.refl _)
  obtain ⟨parent, hid'⟩ := hmoved.symbol_iff.mpr ⟨_, hid⟩
  have hanchor' := hmoved.node?_symbol hne hanchor
  refine destination_eq_ok_iff.mpr ⟨checkMovable_eq ⟨parent, symbol, hid', hsymbol⟩,
    ⟨found, symbol_of_node? hanchor'⟩, ?_, hafter.exists_position hanchor'⟩
  rw [Bool.eq_false_iff, Ne, hafter.contains_iff, hmoved.inside_iff]
  exact houtside

/-- A move is refused exactly for its reasons, and then the tree stays as it is. Without a reason it
is made, as one splice, and made again it changes no node. -/
theorem Reachable.insertAfter_splices (h : tree.Reachable) (anchor id : NodeId) :
    (∀ error after, (insertAfter anchor id).run tree = .error error after ↔
      tree.RefusesInsertion anchor id error ∧ after = tree) ∧
    ((∀ error, ¬tree.RefusesInsertion anchor id error) →
      ∃ expression spliced again, tree.parent? anchor = some expression ∧
        (insertAfter anchor id).run tree = .ok () spliced ∧
        Spliced tree spliced anchor id expression ∧
        (insertAfter anchor id).run spliced = .ok () again ∧
        ∀ y, again.node? y = spliced.node? y) := by
  have htree := h.wellFormed
  have hrun := htree.run_insertAfter anchor id
  constructor
  · intro error after
    rw [hrun, ← htree.destination_eq_error_iff]
    cases tree.destination anchor id with
    | ok expression =>
      constructor
      · rintro ⟨⟩
      · rintro ⟨⟨⟩, -⟩
    | error found =>
      constructor
      · rintro ⟨⟩
        exact ⟨rfl, rfl⟩
      · rintro ⟨⟨⟩, rfl⟩
        rfl
  · intro hallowed
    obtain ⟨error, hrefuses⟩ | ⟨expression, hparent, hdest⟩ := htree.destination_cases anchor id
    · exact absurd hrefuses (hallowed error)
    have hafter := htree.moveAfter hdest
    have hdest' := htree.destination_moveAfter hdest
    have hspliced := htree.spliced_moveAfter hdest
    rw [hdest] at hrun
    have hagain := hafter.run_insertAfter anchor id
    rw [hdest'] at hagain
    exact ⟨expression, _, _, hparent, hrun, hspliced, hagain,
      hspliced.eq_of_twice hafter (hafter.spliced_moveAfter hdest')⟩

/-- Out of a numerator the second of two letters is put behind the fraction, while the fraction
cannot be put behind the first one. -/
theorem insertAfter_behind_fraction :
    let tree := empty.run [.create .fraction, .insertAfter 1 2, .create (.atom 'a'),
      .insertAfter 4 7, .create (.atom 'b'), .insertAfter 7 8]
    tree.Reachable ∧ tree.RefusesInsertion 7 2 .cyclicInsert ∧
      ∃ spliced again, (insertAfter 2 8).run tree = .ok () spliced ∧
        Spliced tree spliced 2 8 root ∧ (insertAfter 2 8).run spliced = .ok () again ∧
        ∀ y, again.node? y = spliced.node? y := by
  intro tree
  have hreach : tree.Reachable := reachable_run _
  have hcycle : (insertAfter 7 2).run tree = .error .cyclicInsert tree := rfl
  have hdest : tree.destination 2 8 = .ok root := rfl
  have hroot : tree.parent? 2 = some root := rfl
  have hallowed : ∀ error, ¬tree.RefusesInsertion 2 8 error := by
    intro error hrefuses
    rw [hrefuses.destination_eq hreach.wellFormed] at hdest
    cases hdest
  obtain ⟨expression, spliced, again, hparent, hrun, hspliced, hagain, hsame⟩ :=
    (hreach.insertAfter_splices 2 8).2 hallowed
  rw [hroot] at hparent
  cases hparent
  exact ⟨hreach, (((hreach.insertAfter_splices 7 2).1 _ _).mp hcycle).1, spliced, again, hrun,
    hspliced, hagain, hsame⟩

end FormulaEditor.Tree
