import FormulaEditor.Proofs.Tree.Display
import FormulaEditor.Proofs.Tree.Emission
import FormulaEditor.Proofs.Tree.Growth
import FormulaEditor.Proofs.Tree.Removal

/-!
# Lines put into a tree

What becomes of a well-formed tree when a line is put into one of its expressions (`Tree.places`).
The line shows as a run of new symbols directly after the anchor, and all other nodes are as they
were (`Tree.Placed`). Since what a symbol shows only depends on the nodes inside it, a symbol which
has been placed goes on showing its glyph while others are placed next to it.
-/

set_option autoImplicit false

namespace FormulaEditor.Tree

variable {tree grown : Tree} {expression anchor : NodeId} {owner : Option NodeId}
  {front back : List NodeId}

/-! ## What a change does not reach -/

/-- Whether all nodes of a tree but one are still as they were. -/
def Spares (tree grown : Tree) (expression : NodeId) : Prop :=
  ∀ y node, y ≠ expression → tree.node? y = some node → grown.node? y = some node

/-- An expression shows what it showed if the one which has changed is not inside it. -/
theorem WellFormed.line_of_spares (h : tree.WellFormed) (hgrown : grown.WellFormed)
    (hspares : Spares tree grown expression) {other : NodeId} {items : List NodeId}
    (hnode : tree.node? other = some ⟨owner, .expression items⟩)
    (houtside : ¬ tree.Inside expression other) : grown.line other = tree.line other := by
  refine h.line_congr hgrown hnode fun id hlive hinside => ?_
  obtain ⟨node, hid⟩ := isLive_iff.mp hlive
  rw [hid]
  refine hspares id node ?_ hid
  rintro rfl
  exact houtside hinside

/-- A symbol goes on showing its glyph when the expression in which it stands is changed. -/
theorem WellFormed.glyph?_of_spares (h : tree.WellFormed) (hgrown : grown.WellFormed)
    (hspares : Spares tree grown expression) {id : NodeId} {symbol : Symbol}
    (hid : tree.node? id = some ⟨some expression, .symbol symbol⟩) :
    grown.glyph? id = tree.glyph? id := by
  -- the expression in which a symbol stands is not inside the symbol
  have hground := h.grounded (isLive_iff.mpr ⟨_, hid⟩)
  have houtside : ¬ tree.Inside expression id := hground.acyclic (parent?_of_node? hid)
  have hkeep : ∀ y, tree.Inside y id → y ≠ expression := by
    rintro y hinside rfl
    exact houtside hinside
  have hid' := hspares id _ (hkeep id (Inside.refl id)) hid
  refine h.glyph?_congr hgrown (symbol_of_node? hid) (symbol_of_node? hid')
    fun y hlive hinside _ => ?_
  obtain ⟨node, hy⟩ := isLive_iff.mp hlive
  rw [hy]
  exact hspares y node (hkeep y hinside) hy

/-! ## One symbol -/

/-- No live node is inside a new symbol. -/
theorem WellFormed.not_inside_nextId (h : tree.WellFormed) (stroke : Stroke) {id : NodeId}
    (hid : tree.isLive id = true) : ¬ (tree.pushSymbol stroke).Inside id tree.nextId := by
  have hground := h.grounded hid
  clear hid
  induction hground with
  | orphan live top =>
    intro hinside
    have htop := parent?_of_node? (@node?_pushSymbol_of_node? _ stroke _ _ live)
    exact ne_nextId_add_of_node? live 0 (hinside.eq_of_orphan (htop.trans top))
  | child live step _ ih =>
    intro hinside
    have hparent := parent?_of_node? (@node?_pushSymbol_of_node? _ stroke _ _ live)
    exact ih (hinside.above (ne_nextId_add_of_node? live 0) (hparent.trans step))

/-- A new symbol may be put in after every symbol which stands in an expression. -/
theorem WellFormed.destination_nextId (h : tree.WellFormed)
    (hexpression : tree.node? expression = some ⟨owner, .expression (front ++ anchor :: back)⟩)
    (stroke : Stroke) :
    (tree.pushSymbol stroke).destination anchor tree.nextId = .ok expression := by
  have hpushed := h.pushSymbol stroke
  have hmem : anchor ∈ front ++ anchor :: back := List.mem_append_right _ List.mem_cons_self
  obtain ⟨symbol, hanchor⟩ := h.node?_of_mem hexpression hmem
  have hanchor' := @node?_pushSymbol_of_node? _ stroke _ _ hanchor
  refine destination_eq_ok_iff.mpr ⟨?_, ⟨symbol, symbol_of_node? hanchor'⟩, ?_, ?_⟩
  · refine checkMovable_eq_ok_iff.mpr ⟨none, _, node?_pushSymbol_self, ?_⟩
    exact (slots_symbol tree.nextId stroke).2.2
  · rw [Bool.eq_false_iff, ne_eq, hpushed.contains_iff]
    exact h.not_inside_nextId stroke (isLive_iff.mpr ⟨_, hanchor⟩)
  · exact hpushed.exists_position hanchor'

/-- Adding a symbol makes it and puts it in. -/
theorem WellFormed.run_add_of_destination {stroke : Stroke}
    (hpushed : (tree.pushSymbol stroke).WellFormed)
    (h : (tree.pushSymbol stroke).destination anchor tree.nextId = .ok expression) :
    (add anchor stroke).run tree =
      .ok tree.nextId ((tree.pushSymbol stroke).moveAfter anchor tree.nextId expression) := by
  have hinsert := hpushed.run_insertAfter anchor tree.nextId
  rw [h] at hinsert
  have hcreate : (create stroke).run tree = .ok tree.nextId (tree.pushSymbol stroke) := rfl
  rw [add, EStateM.run_bind, hcreate]
  show ((insertAfter anchor tree.nextId >>= fun _ => pure tree.nextId).run
    (tree.pushSymbol stroke)) = _
  rw [EStateM.run_bind, hinsert]
  rfl

/-- A new symbol is put in directly after the anchor, its slots hold nothing but their starts, and
all nodes but the expression are as they were. -/
theorem WellFormed.run_add (h : tree.WellFormed)
    (hexpression : tree.node? expression = some ⟨owner, .expression (front ++ anchor :: back)⟩)
    (stroke : Stroke) :
    ∃ grown, (add anchor stroke).run tree = .ok tree.nextId grown ∧ grown.WellFormed ∧
      Spares tree grown expression ∧
      grown.node? expression =
        some ⟨owner, .expression (front ++ anchor :: tree.nextId :: back)⟩ ∧
      grown.node? tree.nextId =
        some ⟨some expression, .symbol (stroke.symbol tree.nextId)⟩ ∧
      ∀ slot ∈ (stroke.symbol tree.nextId).slots,
        grown.node? slot = some ⟨some tree.nextId, .expression [slot + 1]⟩ ∧
          grown.node? (slot + 1) = some ⟨some slot, .symbol .start⟩ := by
  have hdest := h.destination_nextId hexpression stroke
  have hwellFormed := (h.pushSymbol stroke).moveAfter hdest
  have hmove : (tree.pushSymbol stroke).moveAfter anchor tree.nextId expression =
      (tree.pushSymbol stroke).attach anchor tree.nextId expression := by
    rw [Tree.moveAfter, Tree.released, show (tree.pushSymbol stroke).parent? tree.nextId = none from
      parent?_of_node? node?_pushSymbol_self]
  have hlisting := @node?_pushSymbol_of_node? _ stroke _ _ hexpression
  have hmem : anchor ∈ front ++ anchor :: back := List.mem_append_right _ List.mem_cons_self
  have hview := relisting_attach node?_pushSymbol_self hlisting hmem
  rw [hmove] at hwellFormed
  refine ⟨_, ((h.pushSymbol stroke).run_add_of_destination hdest).trans (by rw [hmove]),
    hwellFormed, ?_, ?_, hview.node?_moved, ?_⟩
  · intro y node hy hnode
    rw [hview.node?_rest (ne_nextId_add_of_node? hnode 0) hy]
    exact node?_pushSymbol_of_node? hnode
  · rw [hview.node?_listing, spliceAfter_append (h.notMem_of_split hexpression)]
  · intro slot hslot
    -- the slots and their starts have names after all others, so putting the symbol in spares them
    have hslotNew : tree.nextId < slot := (slots_symbol tree.nextId stroke).2.1 slot hslot
    have hstartNew := Nat.lt_succ_of_lt hslotNew
    have hexpressionOld := lt_nextId_of_node? hexpression
    rw [hview.node?_rest (Nat.ne_of_gt hslotNew) (Nat.ne_of_gt (hexpressionOld.trans hslotNew)),
      hview.node?_rest (Nat.ne_of_gt hstartNew) (Nat.ne_of_gt (hexpressionOld.trans hstartNew))]
    exact node?_pushSymbol_slot hslot

/-! ## Whole lines -/

/-- A tree has become another one by putting a line into an expression after a symbol: it shows as a
run of symbols directly after the symbol, and all nodes but the expression are as they were. -/
structure Placed (tree grown : Tree) (expression anchor : NodeId) (owner : Option NodeId)
    (front back run : List NodeId) (line : Line) : Prop where
  wellFormed : grown.WellFormed
  spares : Spares tree grown expression
  listing : grown.node? expression =
    some ⟨owner, .expression (front ++ anchor :: (run ++ back))⟩
  shows : run.filterMap grown.glyph? = line

/-- Whether a line can be put into every expression of every well-formed tree. -/
def Places (line : Line) : Prop :=
  ∀ (tree : Tree) (expression anchor : NodeId) (owner : Option NodeId) (front back : List NodeId),
    tree.WellFormed →
    tree.node? expression = some ⟨owner, .expression (front ++ anchor :: back)⟩ →
      ∃ run grown, (placeLine anchor line).run tree = .ok (run.getLastD anchor) grown ∧
        Placed tree grown expression anchor owner front back run line

/-- Whether a glyph can be put into every expression of every well-formed tree. -/
def PlacesGlyph (glyph : Glyph) : Prop :=
  ∀ (tree : Tree) (expression anchor : NodeId) (owner : Option NodeId) (front back : List NodeId),
    tree.WellFormed →
    tree.node? expression = some ⟨owner, .expression (front ++ anchor :: back)⟩ →
      ∃ id grown, (placeGlyph anchor glyph).run tree = .ok id grown ∧
        Placed tree grown expression anchor owner front back [id] [glyph]

/-- The line of nothing can be put in everywhere. -/
theorem places_nil : Places [] := by
  intro tree expression anchor owner front back h hexpression
  refine ⟨[], tree, ?_, h, fun _ _ _ hnode => hnode, hexpression, rfl⟩
  rw [placeLine]
  rfl

/-- A line is put in glyph by glyph. -/
theorem places_cons {glyph : Glyph} {line : Line} (hglyph : PlacesGlyph glyph)
    (hline : Places line) : Places (glyph :: line) := by
  intro tree expression anchor owner front back h hexpression
  obtain ⟨id, middle, hrunGlyph, hplaced⟩ :=
    hglyph tree expression anchor owner front back h hexpression
  have hmiddle : middle.node? expression =
      some ⟨owner, .expression ((front ++ [anchor]) ++ id :: back)⟩ := by
    rw [hplaced.listing, List.append_assoc]
    rfl
  obtain ⟨run, grown, hrunLine, hrest⟩ :=
    hline middle expression id owner (front ++ [anchor]) back hplaced.wellFormed hmiddle
  obtain ⟨symbol, hid⟩ := hplaced.wellFormed.node?_of_mem hmiddle
    (List.mem_append_right _ List.mem_cons_self)
  refine ⟨id :: run, grown, ?_, hrest.wellFormed, ?_, ?_, ?_⟩
  · rw [placeLine, EStateM.run_bind, hrunGlyph, List.getLastD_cons]
    exact hrunLine
  · exact fun y node hy hnode => hrest.spares y node hy (hplaced.spares y node hy hnode)
  · rw [hrest.listing, List.append_assoc]
    rfl
  · have hshows := hplaced.shows
    have hsame := hplaced.wellFormed.glyph?_of_spares hrest.wellFormed hrest.spares hid
    rw [List.filterMap_cons, hsame, hrest.shows]
    rw [List.filterMap_cons] at hshows
    cases hfound : middle.glyph? id with
    | none =>
      rw [hfound] at hshows
      cases hshows
    | some found =>
      rw [hfound] at hshows
      cases hshows
      rfl

/-- The start of a slot is found through its symbol. -/
theorem slotStart_eq {id slot start : NodeId} {parent : Option NodeId} {symbol : Symbol}
    {items : List NodeId} {index : Nat} (hid : tree.node? id = some ⟨parent, .symbol symbol⟩)
    (hslot : symbol.slots[index]? = some slot)
    (hnode : tree.node? slot = some ⟨owner, .expression (start :: items)⟩) :
    tree.slotStart id index = .ok start := by
  have hfirst : tree.first slot = .ok start := by
    rw [first, items_of_node? hnode]
    rfl
  simp only [slotStart, symbol_of_node? hid, bind, Except.bind, hslot, hfirst]

/-- A slot with nothing but its start is filled with a line, and then it shows the line. -/
theorem WellFormed.fill (h : tree.WellFormed) {slot start : NodeId} {line : Line}
    (hline : Places line) (hslot : tree.node? slot = some ⟨owner, .expression [start]⟩) :
    ∃ last grown, (placeLine start line).run tree = .ok last grown ∧ grown.WellFormed ∧
      Spares tree grown slot ∧ grown.line slot = line ∧
        ∃ items, grown.node? slot = some ⟨owner, .expression items⟩ := by
  obtain ⟨run, grown, hrun, hplaced⟩ := hline tree slot start owner [] [] h hslot
  refine ⟨_, grown, hrun, hplaced.wellFormed, hplaced.spares, ?_, _, hplaced.listing⟩
  rw [hplaced.wellFormed.line_of_start hplaced.listing, List.append_nil]
  exact hplaced.shows

/-- A glyph with nothing inside it can be put in everywhere. -/
theorem placesGlyph_of_leaf {glyph : Glyph} {stroke : Stroke}
    (hplace : ∀ anchor, placeGlyph anchor glyph = add anchor stroke)
    (hshows : ∀ id inner, (stroke.symbol id).glyph? inner = some glyph) : PlacesGlyph glyph := by
  intro tree expression anchor owner front back h hexpression
  obtain ⟨grown, hrun, hgrown, hspares, hlisting, hid, -⟩ := h.run_add hexpression stroke
  refine ⟨tree.nextId, grown, ?_, hgrown, hspares, hlisting, ?_⟩
  · rw [hplace, hrun]
  · rw [List.filterMap_cons, glyph?_of_node? hid, hshows]
    rfl

/-- A symbol with one slot is put in before the slot is filled. -/
theorem placesGlyph_of_slot {glyph : Glyph} {stroke : Stroke} {line : Line}
    (hplace : ∀ anchor, placeGlyph anchor glyph = do
      let id ← add anchor stroke
      let _ ← placeLine (← Edit.look (·.slotStart id 0)) line
      return id)
    (hslots : ∀ id, (stroke.symbol id).slots = [id + 1])
    (hshows : ∀ id inner, inner (id + 1) = line → (stroke.symbol id).glyph? inner = some glyph)
    (hline : Places line) : PlacesGlyph glyph := by
  intro tree expression anchor owner front back h hexpression
  obtain ⟨middle, hadd, hmiddle, hspares, hlisting, hid, hslot⟩ := h.run_add hexpression stroke
  obtain ⟨hslotNode, -⟩ := hslot (tree.nextId + 1) (by rw [hslots]; exact List.mem_cons_self)
  have hslotStart : middle.slotStart tree.nextId 0 = .ok (tree.nextId + 2) :=
    slotStart_eq hid (by rw [hslots]; rfl) hslotNode
  obtain ⟨last, grown, hfill, hgrown, hfilled, hshown, -⟩ := hmiddle.fill hline hslotNode
  refine ⟨tree.nextId, grown, ?_, hgrown, ?_, ?_, ?_⟩
  · rw [hplace, EStateM.run_bind, hadd]
    simp only [EStateM.run_bind, Edit.run_look, hslotStart, hfill]
    rfl
  · intro y node hy hnode
    exact hfilled y node (ne_nextId_add_of_node? hnode 1) (hspares y node hy hnode)
  · exact hfilled _ _ (ne_nextId_add_of_node? hexpression 1) hlisting
  · have hid' := hfilled tree.nextId _ (Nat.ne_of_lt (Nat.lt_succ_self _)) hid
    rw [List.filterMap_cons, glyph?_of_node? hid', hshows _ _ hshown]
    rfl

/-- A fraction is put in before its numerator is filled, and then its denominator. -/
theorem placesGlyph_fraction {numerator denominator : Line} (hnumerator : Places numerator)
    (hdenominator : Places denominator) : PlacesGlyph (.fraction numerator denominator) := by
  intro tree expression anchor owner front back h hexpression
  obtain ⟨made, hadd, hmade, hspares, hlisting, hid, hslots⟩ := h.run_add hexpression .fraction
  obtain ⟨htop, -⟩ := hslots (tree.nextId + 1) List.mem_cons_self
  obtain ⟨hbottom, -⟩ := hslots (tree.nextId + 3) (List.mem_cons_of_mem _ List.mem_cons_self)
  have htopSlot : made.slotStart tree.nextId 0 = .ok (tree.nextId + 2) :=
    slotStart_eq hid rfl htop
  obtain ⟨topLast, middle, hfillTop, hmiddle, hfilledTop, hshowsTop, topItems, htopFilled⟩ :=
    hmade.fill hnumerator htop
  have hne : tree.nextId + 3 ≠ tree.nextId + 1 := by simp
  have hbottom' := hfilledTop _ _ hne hbottom
  have hid' := hfilledTop tree.nextId _ (by simp) hid
  have hbottomSlot : middle.slotStart tree.nextId 1 = .ok (tree.nextId + 4) :=
    slotStart_eq hid' rfl hbottom'
  obtain ⟨bottomLast, grown, hfillBottom, hgrown, hfilledBottom, hshowsBottom, -⟩ :=
    hmiddle.fill hdenominator hbottom'
  -- the numerator is not above the denominator, so it still shows what it did
  have houtside : ¬ middle.Inside (tree.nextId + 3) (tree.nextId + 1) := by
    intro hinside
    have hground := hmiddle.grounded (isLive_iff.mpr ⟨_, htopFilled⟩)
    exact hground.acyclic (parent?_of_node? htopFilled)
      (hinside.above hne (parent?_of_node? hbottom'))
  have hshowsTop' := hmiddle.line_of_spares hgrown hfilledBottom htopFilled houtside
  refine ⟨tree.nextId, grown, ?_, hgrown, ?_, ?_, ?_⟩
  · rw [placeGlyph, EStateM.run_bind, hadd]
    simp only [EStateM.run_bind, Edit.run_look, htopSlot, hfillTop, hbottomSlot, hfillBottom]
    rfl
  · intro y node hy hnode
    have hmiddle := hfilledTop y node (ne_nextId_add_of_node? hnode 1) (hspares y node hy hnode)
    exact hfilledBottom y node (ne_nextId_add_of_node? hnode 3) hmiddle
  · have hmiddle := hfilledTop _ _ (ne_nextId_add_of_node? hexpression 1) hlisting
    exact hfilledBottom _ _ (ne_nextId_add_of_node? hexpression 3) hmiddle
  · have hid'' := hfilledBottom tree.nextId _ (by simp) hid'
    have hglyph : grown.glyph? tree.nextId = some (.fraction numerator denominator) := by
      rw [glyph?_of_node? hid'', ← hshowsBottom, ← hshowsTop, ← hshowsTop']
      rfl
    rw [List.filterMap_cons, hglyph]
    rfl

mutual

/-- Every glyph can be put into every expression of a well-formed tree. -/
theorem placesGlyph : (glyph : Glyph) → PlacesGlyph glyph
  | .atom c => placesGlyph_of_leaf (fun anchor => by rw [placeGlyph]) fun _ _ => rfl
  | .bracket side => placesGlyph_of_leaf (fun anchor => by rw [placeGlyph]) fun _ _ => rfl
  | .bar => placesGlyph_of_leaf (fun anchor => by rw [placeGlyph]) fun _ _ => rfl
  | .fraction numerator denominator =>
    placesGlyph_fraction (places numerator) (places denominator)
  | .superscript exponent =>
    placesGlyph_of_slot (fun anchor => by rw [placeGlyph]) (fun _ => rfl)
      (fun _ _ hinner => by rw [← hinner]; rfl) (places exponent)
  | .radical radicand =>
    placesGlyph_of_slot (fun anchor => by rw [placeGlyph]) (fun _ => rfl)
      (fun _ _ hinner => by rw [← hinner]; rfl) (places radicand)

/-- Every line can be put into every expression of a well-formed tree. -/
theorem places : (line : List Glyph) → Places line
  | [] => places_nil
  | glyph :: line => places_cons (placesGlyph glyph) (places line)

end

end FormulaEditor.Tree
