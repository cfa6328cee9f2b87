import FormulaEditor.Proofs.Tree.Enlarging

/-!
# Formulas as inlays

A formula which can be typeset is put in behind every symbol that stands in an expression, and what
comes of it is an inlay (`Tree.Inlaid`): a run of new symbols directly behind the symbol, with
everything else that is new in their slots, while no old node but the expression changes. The run
shows the line of the formula wherever it is put in, and so the same as in an empty tree
(`Tree.Reachable.typeset_inlays`).
-/

set_option autoImplicit false

namespace FormulaEditor

/-- What can be typeset has a line with something in it. -/
theorem Formula.typeset_ne_nil {formula : Formula} (h : formula.typesettable = .ok ()) :
    formula.typeset ≠ [] := by
  intro hnil
  have hread := formula_typeset h
  rw [hnil] at hread
  cases hread

namespace Tree

open Edit

/-- One tree is another one into which a run of new symbols has been put, with what is inside them,
directly behind a symbol of an expression. -/
structure Inlaid (tree grown : Tree) (expression anchor : NodeId) (run : List NodeId) : Prop where
  /-- The list of the expression is its old one, with the run behind the anchor. -/
  listing : ∃ owner front back,
    tree.node? expression = some ⟨owner, .expression (front ++ anchor :: back)⟩ ∧
    grown.node? expression = some ⟨owner, .expression (front ++ anchor :: (run ++ back))⟩
  nonempty : run ≠ []
  fresh : ∀ id ∈ run, tree.nextId ≤ id
  /-- Every other name which has been given denotes the node which it did, or none. -/
  rest : ∀ y, y < tree.nextId → y ≠ expression → grown.node? y = tree.node? y
  /-- What else is new is in a slot of a symbol of the run. -/
  inside : ∀ y, tree.nextId ≤ y → grown.isLive y = true → y ∉ run →
    ∃ id ∈ run, ∃ symbol, grown.symbol id = .ok symbol ∧ ∃ slot ∈ symbol.slots, grown.Inside y slot

/-- Whatever has been made since has a parent. -/
def Tethered (tree later : Tree) : Prop :=
  ∀ y, later.isLive y = true → later.parent? y = none → tree.isLive y = true

variable {tree middle grown : Tree} {id anchor expression y : NodeId} {owner : Option NodeId}
  {stroke : Stroke} {front back run items : List NodeId} {line : Line} {formula : Formula}

/-! ## Nothing new is loose -/

/-- A symbol which is added is put in, and what it brings with it is in its slots. -/
theorem WellFormed.tethered_of_run_add (h : middle.WellFormed) (htethered : Tethered tree middle)
    (hrun : (add anchor stroke).run middle = .ok id grown) : Tethered tree grown := by
  obtain ⟨-, expression, hdest, rfl⟩ := h.of_run_add hrun
  obtain ⟨hmoved, hparent, -⟩ := (h.pushSymbol stroke).moved_moveAfter hdest
  intro y hlive horphan
  have hne : y ≠ middle.nextId := by
    rintro rfl
    rw [hparent] at horphan
    cases horphan
  rw [hmoved.parent?_eq hne] at horphan
  obtain ⟨node, hnode⟩ := isLive_iff.mp (hmoved.isLive_iff.mp hlive)
  rw [parent?_of_node? hnode] at horphan
  rcases (node?_pushSymbol_iff _ _).mp hnode with
    hold | ⟨heq, -⟩ | ⟨slot, -, ⟨-, rfl⟩ | ⟨-, rfl⟩⟩
  · exact htethered y (isLive_iff.mpr ⟨node, hold⟩) ((parent?_of_node? hold).trans horphan)
  · exact absurd heq hne
  · cases horphan
  · cases horphan

/-- When a formula has been typeset everything which has been made for it has a parent. -/
theorem WellFormed.tethered_of_run_typeset (h : tree.WellFormed) {last : NodeId}
    (hrun : (typeset anchor formula).run tree = .ok last grown) : Tethered tree grown := by
  have hadd : ∀ anchor stroke,
      Restores (fun later => later.WellFormed ∧ Tethered tree later) (add anchor stroke) := by
    intro anchor stroke middle id grown hmiddle hrun
    exact ⟨(hmiddle.1.growsInto_of_run_add hrun).1, hmiddle.1.tethered_of_run_add hmiddle.2 hrun⟩
  exact ((composes_restores _).typeset hadd anchor formula tree last grown
    ⟨h, fun _ hlive _ => hlive⟩ hrun).2

/-! ## What is put in is an inlay -/

namespace Placed

variable (h : tree.WellFormed)
  (hexpression : tree.node? expression = some ⟨owner, .expression (front ++ anchor :: back)⟩)
  (hplaced : Placed tree grown expression anchor owner front back run line)
  (hgrows : tree.GrowsInto grown)

include h hexpression hplaced hgrows in
/-- The symbols of the run are new, since the old ones are next to it. -/
theorem nextId_le_of_mem (hid : id ∈ run) : tree.nextId ≤ id := by
  have hmem : id ∈ front ++ anchor :: (run ++ back) := by simp [hid]
  obtain ⟨symbol, hnode⟩ := hplaced.wellFormed.node?_of_mem hplaced.listing hmem
  by_contra hgiven
  have hne : id ≠ expression := by
    rintro rfl
    rw [hplaced.listing] at hnode
    cases hnode
  rw [hgrows.node?_of_lt hplaced.spares (Nat.lt_of_not_le hgiven) hne] at hnode
  have hold := (h.mem_below_iff hexpression).mpr (parent?_of_node? hnode)
  have nodup := (hplaced.wellFormed.lists hplaced.listing).nodup
  simp only [List.nodup_append, List.nodup_cons, List.mem_append, List.mem_cons] at nodup
  simp only [Node.below, List.mem_append, List.mem_cons] at hold
  grind

include h hexpression hplaced hgrows in
/-- Below an old node there is nothing new but the run. -/
theorem mem_of_parent? {parent : NodeId} (hnew : tree.nextId ≤ y)
    (hparent : grown.parent? y = some parent) (hgiven : parent < tree.nextId) : y ∈ run := by
  have hfresh : ∀ {above}, tree.parent? y ≠ some above := by
    intro above habove
    obtain ⟨kind, hnode⟩ := node?_of_parent? habove
    exact Nat.not_le_of_lt (lt_nextId_of_node? hnode) hnew
  by_cases hne : parent = expression
  · subst hne
    have hmem := (hplaced.wellFormed.mem_below_iff hplaced.listing).mpr hparent
    have hold : y ∉ front ++ anchor :: back :=
      fun hold => hfresh (h.parent?_of_mem hexpression hold)
    simp only [Node.below, List.mem_append, List.mem_cons] at hmem hold
    grind
  · obtain ⟨kind, hnode⟩ := node?_of_parent? hparent
    obtain ⟨node, habove⟩ := isLive_iff.mp
      ((hplaced.wellFormed.grounded (isLive_iff.mpr ⟨_, hnode⟩)).up hparent).isLive
    have hmem := (hplaced.wellFormed.mem_below_iff habove).mpr hparent
    rw [hgrows.node?_of_lt hplaced.spares hgiven hne] at habove
    exact absurd ((h.mem_below_iff habove).mp hmem) hfresh

include h hexpression hplaced hgrows in
/-- The way up from a new node comes to the run, through a slot of one of its symbols unless the
node is in the run itself. -/
theorem exists_slot (htethered : Tethered tree grown) (hlive : grown.isLive y = true)
    (hnew : tree.nextId ≤ y) (hy : y ∉ run) :
    ∃ id ∈ run, ∃ symbol, grown.symbol id = .ok symbol ∧
      ∃ slot ∈ symbol.slots, grown.Inside y slot := by
  have hground := hplaced.wellFormed.grounded hlive
  clear hlive
  induction hground with
  | @orphan y node live top =>
    obtain ⟨_, hold⟩ := isLive_iff.mp
      (htethered y (isLive_iff.mpr ⟨node, live⟩) ((parent?_of_node? live).trans top))
    exact absurd hnew (Nat.not_le_of_lt (lt_nextId_of_node? hold))
  | @child y parent node live step above ih =>
    have hparent := (parent?_of_node? live).trans step
    have hnew' : tree.nextId ≤ parent := by
      by_contra hgiven
      exact hy (hplaced.mem_of_parent? h hexpression hgrows hnew hparent (Nat.lt_of_not_le hgiven))
    by_cases hmem : parent ∈ run
    · obtain ⟨symbol, hsymbol⟩ := hplaced.wellFormed.node?_of_mem hplaced.listing
        (List.mem_append_right front (List.mem_cons_of_mem anchor (List.mem_append_left back hmem)))
      exact ⟨parent, hmem, symbol, symbol_of_node? hsymbol, y,
        (hplaced.wellFormed.mem_below_iff hsymbol).mpr hparent, Inside.refl y⟩
    · obtain ⟨id, hid, symbol, hsymbol, slot, hslot, hinside⟩ := ih hnew' hmem
      exact ⟨id, hid, symbol, hsymbol, slot, hslot, Inside.child hparent hinside⟩

include h hexpression hplaced hgrows in
/-- A line which has been placed is an inlay if everything which has been made has a parent. -/
theorem inlaid (htethered : Tethered tree grown) (hline : line ≠ []) :
    Inlaid tree grown expression anchor run where
  listing := ⟨owner, front, back, hexpression, hplaced.listing⟩
  nonempty := by
    rintro rfl
    exact hline hplaced.shows.symm
  fresh _ hid := hplaced.nextId_le_of_mem h hexpression hgrows hid
  rest _ hgiven hne := hgrows.node?_of_lt hplaced.spares hgiven hne
  inside _ hnew hlive hy := hplaced.exists_slot h hexpression hgrows htethered hlive hnew hy

include hplaced in
/-- The symbols of the run show the glyphs of the line, one each: none of them is a start. -/
theorem map_glyph? : run.map grown.glyph? = line.map some := by
  obtain ⟨first, others, hitems, -, hothers⟩ := (hplaced.wellFormed.lists hplaced.listing).start
  have hshow : ∀ id ∈ run, ∃ glyph, grown.glyph? id = some glyph := by
    intro id hid
    have hmem : id ∈ others := by
      cases front with
      | nil =>
        obtain ⟨-, rfl⟩ := List.cons.inj hitems
        exact List.mem_append_left back hid
      | cons _ front =>
        obtain ⟨-, rfl⟩ := List.cons.inj hitems
        simp [hid]
    obtain ⟨symbol, hsymbol, hnode⟩ := hothers id hmem
    rw [glyph?_of_node? hnode, ← Option.isSome_iff_exists, Option.isSome_iff_ne_none]
    exact fun hnone => hsymbol (Symbol.glyph?_eq_none_iff.mp hnone)
  have : Nonempty Glyph := ⟨.bar⟩
  choose! shape hshape using hshow
  rw [← hplaced.shows, List.filterMap_congr hshape, List.map_congr_left hshape,
    List.filterMap_eq_map', List.map_map]
  rfl

end Placed

/-- A formula which can be typeset is put in behind a symbol of an expression as an inlay, and shows
its line. -/
theorem WellFormed.inlaid_of_typeset (h : tree.WellFormed)
    (hitems : tree.items expression = .ok items) (hanchor : anchor ∈ items)
    (hformula : formula.typesettable = .ok ()) :
    ∃ run last grown, (typeset anchor formula).run tree = .ok last grown ∧
      run.getLast? = some last ∧ Inlaid tree grown expression anchor run ∧
      run.map grown.glyph? = formula.typeset.map some := by
  obtain ⟨owner, hexpression⟩ := items_eq_ok_iff.mp hitems
  obtain ⟨front, back, rfl⟩ := List.append_of_mem hanchor
  obtain ⟨run, grown, hrun, hplaced⟩ := h.run_typeset hexpression hformula
  have hinlaid := hplaced.inlaid h hexpression (h.growsInto_of_run_typeset hrun)
    (h.tethered_of_run_typeset hrun) (Formula.typeset_ne_nil hformula)
  refine ⟨run, _, grown, hrun, ?_, hinlaid, hplaced.map_glyph?⟩
  rw [List.getLastD_eq_getLast?, List.getLast?_eq_some_getLast hinlaid.nonempty]
  rfl

/-- Behind every symbol of every expression, a formula which can be typeset becomes an inlay. The
answer is the last symbol of its run, and the run shows the same as the one which the formula
becomes in the root of an empty tree. -/
theorem Reachable.typeset_inlays (h : tree.Reachable) (hitems : tree.items expression = .ok items)
    (hanchor : anchor ∈ items) (hformula : formula.typesettable = .ok ()) :
    ∃ run last grown, (typeset anchor formula).run tree = .ok last grown ∧
      run.getLast? = some last ∧ Inlaid tree grown expression anchor run ∧
      ∃ alone lastAlone fresh, (typeset Editor.home formula).run empty = .ok lastAlone fresh ∧
        Inlaid empty fresh root Editor.home alone ∧
        run.map grown.glyph? = alone.map fresh.glyph? ∧
        ∀ id ∈ run, (grown.glyph? id).isSome = true := by
  obtain ⟨run, last, grown, hrun, hlast, hinlaid, hshows⟩ :=
    h.wellFormed.inlaid_of_typeset hitems hanchor hformula
  obtain ⟨alone, lastAlone, fresh, hrun', -, hinlaid', hshows'⟩ :=
    wellFormed_empty.inlaid_of_typeset (items_of_node? (node?_empty root))
      (List.mem_singleton_self _) hformula
  refine ⟨run, last, grown, hrun, hlast, hinlaid, alone, lastAlone, fresh, hrun', hinlaid',
    hshows.trans hshows'.symm, fun id hid => ?_⟩
  have hmem := List.mem_map_of_mem (f := grown.glyph?) hid
  rw [hshows] at hmem
  obtain ⟨glyph, -, hglyph⟩ := List.mem_map.mp hmem
  rw [← hglyph]
  rfl

/-- A product of a power and a fraction is put into a numerator, between a letter and a bar. -/
theorem typeset_inlays_in_numerator :
    let tree := empty.run [.create .fraction, .insertAfter 1 2, .create (.atom 'a'),
      .insertAfter 4 7, .create .bar, .insertAfter 7 8]
    let formula : Formula := .apply .times
      [.apply .power [.apply .minus [.identifier 'x'], .number "2"],
        .apply .divide [.number "1", .identifier 'y']]
    tree.Reachable ∧ tree.items 3 = .ok [4, 7, 8] ∧ formula.typesettable = .ok () ∧
      ∃ run last grown, (typeset 7 formula).run tree = .ok last grown ∧
        run.getLast? = some last ∧ Inlaid tree grown 3 7 run ∧
        ∃ alone lastAlone fresh, (typeset Editor.home formula).run empty = .ok lastAlone fresh ∧
          Inlaid empty fresh root Editor.home alone ∧
          run.map grown.glyph? = alone.map fresh.glyph? := by
  intro tree formula
  have hreach : tree.Reachable := reachable_run _
  have hitems : tree.items 3 = .ok [4, 7, 8] := rfl
  have hformula : formula.typesettable = .ok () := rfl
  obtain ⟨run, last, grown, hrun, hlast, hinlaid, alone, lastAlone, fresh, hrun', hinlaid', hsame,
    -⟩ := hreach.typeset_inlays hitems (show 7 ∈ [4, 7, 8] by decide) hformula
  exact ⟨hreach, hitems, hformula, run, last, grown, hrun, hlast, hinlaid, alone, lastAlone, fresh,
    hrun', hinlaid', hsame⟩

end Tree

end FormulaEditor
