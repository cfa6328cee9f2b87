import FormulaEditor.Proofs.Composition
import FormulaEditor.Proofs.Line.Balance
import FormulaEditor.Proofs.Tree.Gathering
import FormulaEditor.Proofs.Tree.Positions
import FormulaEditor.Proofs.Typing

/-!
# Typing a fraction

A fraction which is typed after an operand (`Line.Operand`), alone or behind a sum
(`Line.Leads`), means the fraction with the operand as its numerator
(`Editor.Reachable.denotes_fraction`).
Three things come together for that. The run which a numerator takes is exactly the operand, because
what can be grouped is balanced. The symbols of the operand show in the numerator what they showed
before, since nothing inside them changes (`Tree.Divided.line_eq`). And the fraction is one operand
for what is left of the line.
-/

set_option autoImplicit false

namespace FormulaEditor

open Edit
open Formula (bracketed)

/-! ## Operands and what leads to them -/

/-- A line which denotes a formula and is taken into a numerator as a whole: a content between
brackets, or a run of letters and digits. -/
inductive Line.Operand : Line → Formula → Prop
  | group {content : Line} {value : Formula} (hcontent : content.formula = .ok value) :
      Operand (bracketed content) value
  | letters {text : List Char} {value : Formula} (hne : text ≠ [])
      (htext : ∀ c ∈ text, Text.isAlphanumeric c = true)
      (hvalue : Line.formula (text.map .atom) = .ok value) : Operand (text.map .atom) value

/-- What stands before an operand, and what the whole line denotes then: nothing else, or a sum with
the operand as its last term. -/
inductive Line.Leads : Line → (Formula → Formula) → Prop
  | alone : Leads [] id
  | sum {left : Line} {value : Formula} (hleft : left.formula = .ok value) :
      Leads (left ++ [.atom '+']) (.binary .plus value)

namespace Line

variable {front operand : Line} {around : Formula → Formula} {value : Formula}

/-- An operand denotes its value on its own. -/
theorem Operand.formula_eq (h : Operand operand value) : operand.formula = .ok value := by
  cases h with
  | group hcontent => exact (Yields.bracketed hcontent).formula_eq rfl
  | letters _ _ hvalue => exact hvalue

/-- Behind what leads to it one operand stands for its value. -/
theorem Leads.formula_eq (h : Leads front around)
    (hoperand : Yields operand [.operand (.ok value)]) :
    Line.formula (front ++ operand) = .ok (around value) := by
  cases h with
  | alone => exact hoperand.formula_eq rfl
  | sum hleft =>
    obtain ⟨tokens, htokens, hsum⟩ := formula_eq_ok_iff.mp hleft
    have hplus := @Yields.sign '+' (by decide)
    rw [List.append_assoc]
    exact (htokens.append (hplus.append hoperand)).formula_eq
      (Token.sum_append_operand (.inl ⟨rfl, rfl⟩) hsum)

/-- A fraction is one operand. -/
theorem Yields.fraction {numerator denominator : Line} {top bottom : Formula}
    (hnumerator : numerator.formula = .ok top) (hdenominator : denominator.formula = .ok bottom) :
    Yields [.fraction numerator denominator] [.operand (.ok (.binary .divide top bottom))] := by
  refine .glyph ?_ (show '%' ∉ _ by decide)
  rw [Glyph.token, Token.slot_eq_ok_iff.mpr hnumerator, Token.slot_eq_ok_iff.mpr hdenominator]
  rfl

/-- The characters of a line, as they are counted and grouped. -/
def precis (line : Line) : List Char :=
  (Glyph.tokens line).map Token.precis

/-- The characters of two lines one after the other are those of both. -/
theorem precis_append (left right : Line) :
    Line.precis (left ++ right) = Line.precis left ++ Line.precis right := by
  rw [precis, Glyph.tokens_append, List.map_append]
  rfl

/-- Plain characters stand for themselves. -/
theorem precis_atoms (text : List Char) : Line.precis (text.map .atom) = text := by
  induction text with
  | nil => rfl
  | cons c text ih =>
    have hc : (Token.ofChar c).precis = c := Symbol.precis_token (fun _ => []) (.atom c)
    show (Token.ofChar c).precis :: Line.precis (text.map .atom) = _
    rw [hc, ih]

/-- Counted backwards, no brackets of a content which denotes a formula are left open before all of
them are. -/
theorem counts_of_formula {content : Line} (h : content.formula = .ok value) :
    content.precis.count ')' = content.precis.count '(' ∧
      ∀ n, (content.precis.drop n).count '(' ≤ (content.precis.drop n).count ')' := by
  have hstart : Fence.Balanced ['_'] := .plain (by decide) (by decide) .nil
  have hbalanced : Fence.Balanced ('_' :: content.precis) := by
    rw [Line.formula, Token.formula] at h
    cases hgroup : Fence.group Token.precis 1 (Glyph.tokens content) with
    | error position =>
      rw [hgroup] at h
      cases h
    | ok spans => exact Fence.balanced_of_group hstart hgroup
  constructor
  · have hcount := hbalanced.count_eq
    rwa [List.count_cons_of_ne (by decide), List.count_cons_of_ne (by decide)] at hcount
  · exact fun n => hbalanced.count_drop_le (n + 1)

/-- What a numerator takes at the end of such a line is the operand. -/
theorem Operand.collects (h : Operand operand value) (hfront : Leads front around) :
    Numerator.Collects front.precis operand.precis := by
  cases h with
  | @group content _ hcontent =>
    obtain ⟨hcount, hdrop⟩ := counts_of_formula hcontent
    have hprecis : Line.precis (bracketed content) = '(' :: (content.precis ++ [')']) := by
      rw [bracketed, precis_append]
      rfl
    rw [hprecis]
    exact .group hcount hdrop
  | letters hne htext _ =>
    rw [precis_atoms]
    refine .letters hne htext fun c hc => ?_
    cases hfront with
    | alone => cases hc
    | sum _ =>
      have hlast : (Line.precis [.atom '+']) = ['+'] := rfl
      rw [precis_append, hlast, List.getLast?_concat] at hc
      cases hc
      decide +kernel

end Line

/-! ## A fraction with the end of an expression in it -/

namespace Tree

variable {tree made grown later : Tree} {expression slot start cursor id : NodeId}
  {owner : Option NodeId} {kept run : List NodeId}

/-- Inside an expression with nothing but its start in it there is nothing else. -/
theorem WellFormed.eq_of_inside_empty (h : tree.WellFormed)
    (hslot : tree.node? slot = some ⟨owner, .expression [start]⟩)
    (hstart : tree.node? start = some ⟨some slot, .symbol .start⟩) (hinside : tree.Inside id slot) :
    id = slot ∨ id = start := by
  induction hinside using Relation.ReflTransGen.head_induction_on with
  | refl => exact .inl rfl
  | @head child parent hstep _ ih =>
    obtain rfl | rfl := ih
    · exact .inr (List.mem_singleton.mp ((h.mem_below_iff hslot).mpr hstep))
    · cases (h.mem_below_iff hstart).mpr hstep

/-- The characters of symbols behind the start of an expression are those of what they show. -/
theorem WellFormed.precis_filterMap (h : tree.WellFormed) {others symbols : List NodeId}
    (hexpression : tree.node? expression = some ⟨owner, .expression (start :: others)⟩)
    (hsymbols : ∀ y ∈ symbols, y ∈ others) :
    Line.precis (symbols.filterMap tree.glyph?) = (symbols.map tree.token).map Token.precis := by
  obtain ⟨_, _, hitems, -, hothers⟩ := (h.lists hexpression).start
  cases hitems
  rw [Line.precis, tokens_filterMap fun y hy => hothers y (hsymbols y hy)]

/-- A tree has become another one by putting a fraction at the end of an expression, whose last
symbols are its numerator and whose denominator is empty. -/
structure Divided (tree grown : Tree) (expression : NodeId) (owner : Option NodeId) (start : NodeId)
    (kept run : List NodeId) : Prop where
  wellFormed : grown.WellFormed
  listing : grown.node? expression =
    some ⟨owner, .expression (start :: (kept ++ [tree.nextId]))⟩
  fraction : grown.node? tree.nextId =
    some ⟨some expression, .symbol (Stroke.fraction.symbol tree.nextId)⟩
  numerator : grown.node? (tree.nextId + 1) =
    some ⟨some tree.nextId, .expression ((tree.nextId + 2) :: run)⟩
  denominator : grown.node? (tree.nextId + 3) =
    some ⟨some tree.nextId, .expression [tree.nextId + 4]⟩
  starts : grown.node? (tree.nextId + 2) = some ⟨some (tree.nextId + 1), .symbol .start⟩ ∧
    grown.node? (tree.nextId + 4) = some ⟨some (tree.nextId + 3), .symbol .start⟩
  symbols : ∀ y ∈ kept ++ run, ∀ symbol, tree.symbol y = .ok symbol → grown.symbol y = .ok symbol
  rest : ∀ y node, y ∉ run → y ≠ expression → tree.node? y = some node →
    grown.node? y = some node

/-- When only the list of an expression changes, the symbols which were in it stay what they are. -/
theorem WellFormed.node?_of_spares (h : tree.WellFormed)
    (hexpression : tree.node? expression = some ⟨owner, .expression (start :: (kept ++ run))⟩)
    (hspares : Spares tree made expression) {id : NodeId} (hid : id ∈ kept ++ run) :
    ∃ symbol, tree.node? id = some ⟨some expression, .symbol symbol⟩ ∧
      made.node? id = some ⟨some expression, .symbol symbol⟩ ∧ id ≠ expression := by
  obtain ⟨symbol, hnode⟩ := h.node?_of_mem hexpression (List.mem_cons_of_mem _ hid)
  have hne : id ≠ expression := by
    rintro rfl
    rw [hexpression] at hnode
    cases hnode
  exact ⟨symbol, hnode, hspares id _ hne hnode, hne⟩

/-- What has become of the tree when the new fraction has taken its numerator. -/
theorem Gathered.divided (h : tree.WellFormed)
    (hexpression : tree.node? expression = some ⟨owner, .expression (start :: (kept ++ run))⟩)
    (hspares : Spares tree made expression)
    (hlisting : made.node? expression =
      some ⟨owner, .expression (start :: (kept ++ run ++ tree.nextId :: []))⟩)
    (hid : made.node? tree.nextId =
      some ⟨some expression, .symbol (Stroke.fraction.symbol tree.nextId)⟩)
    (hslots : ∀ slot ∈ (Stroke.fraction.symbol tree.nextId).slots,
      made.node? slot = some ⟨some tree.nextId, .expression [slot + 1]⟩ ∧
        made.node? (slot + 1) = some ⟨some slot, .symbol .start⟩)
    (hgrown : grown.WellFormed)
    (hgathered : Gathered made grown run expression (tree.nextId + 1)
      (start :: (kept ++ tree.nextId :: [])) ((tree.nextId + 2) :: (run ++ []))) :
    tree.Divided grown expression owner start kept run := by
  obtain ⟨hnumerator, htop⟩ := hslots (tree.nextId + 1) List.mem_cons_self
  obtain ⟨hdenominator, hbottom⟩ :=
    hslots (tree.nextId + 3) (List.mem_cons_of_mem _ List.mem_cons_self)
  -- of the new nodes only the numerator changes
  have hnew : ∀ k node, k ≠ 1 → made.node? (tree.nextId + k) = some node →
      grown.node? (tree.nextId + k) = some node := by
    intro k node hk hnode
    rw [hgathered.rest _ (fun hmem => ?_) (Ne.symm (ne_nextId_add_of_node? hexpression k))
      fun heq => hk (Nat.add_left_cancel heq), hnode]
    obtain ⟨_, hold, -⟩ := h.node?_of_spares hexpression hspares (List.mem_append_right _ hmem)
    exact ne_nextId_add_of_node? hold k rfl
  refine ⟨hgrown, ?_, hnew 0 _ (by decide) hid, ?_, hnew 3 _ (by decide) hdenominator,
    ⟨hnew 2 _ (by decide) htop, hnew 4 _ (by decide) hbottom⟩, fun y hy symbol hsymbol => ?_,
    fun y node hy hne hnode => ?_⟩
  · rw [hgathered.listing, hlisting]
    rfl
  · rw [hgathered.filled, hnumerator, List.append_nil]
    rfl
  · obtain ⟨s, hold, hnode, hne⟩ := h.node?_of_spares hexpression hspares hy
    rw [symbol_of_node? hold] at hsymbol
    cases hsymbol
    by_cases hmem : y ∈ run
    · exact symbol_eq_ok_iff.mpr ⟨_, by rw [hgathered.moved y hmem, hnode]; rfl⟩
    · refine symbol_eq_ok_iff.mpr ⟨_, (hgathered.rest y hmem hne ?_).trans hnode⟩
      exact ne_nextId_add_of_node? hold 1
  · rw [hgathered.rest y hy hne (ne_nextId_add_of_node? hnode 1)]
    exact hspares y node hne hnode

/-- A new fraction at the end of an expression takes what a numerator takes there. -/
theorem WellFormed.exists_divided (h : tree.WellFormed)
    (hexpression : tree.node? expression = some ⟨owner, .expression (start :: (kept ++ run))⟩)
    (hcursor : (kept ++ run).getLast? = some cursor)
    (hcollects : Numerator.Collects (Line.precis (kept.filterMap tree.glyph?))
      (Line.precis (run.filterMap tree.glyph?))) :
    ∃ made grown, (add cursor .fraction).run tree = .ok tree.nextId made ∧
      made.symbol tree.nextId = .ok (Stroke.fraction.symbol tree.nextId) ∧
      (fillNumerator tree.nextId).run made = .ok true grown ∧
      tree.Divided grown expression owner start kept run := by
  obtain ⟨front, hfront⟩ := List.getLast?_eq_some_iff.mp hcursor
  have hsplit : tree.node? expression =
      some ⟨owner, .expression ((start :: front) ++ cursor :: [])⟩ := by
    rw [hexpression, hfront]
    rfl
  obtain ⟨made, hadd, hmade, hspares, hlisting, hid, hslots⟩ := h.run_add hsplit .fraction
  have hlisting' : made.node? expression =
      some ⟨owner, .expression (start :: (kept ++ run ++ tree.nextId :: []))⟩ := by
    rw [hlisting, hfront]
    simp
  rw [h.precis_filterMap hexpression fun y hy => List.mem_append_left _ hy,
    h.precis_filterMap hexpression fun y hy => List.mem_append_right _ hy] at hcollects
  have hprecis : (kept ++ run).mapM
      (fun item => return (← made.symbol item).precis : NodeId → Except Error Char) =
        .ok ((kept.map tree.token).map Token.precis ++ (run.map tree.token).map Token.precis) := by
    rw [← List.map_append, ← List.map_append, List.map_map]
    refine mapM_eq_ok fun y hy => ?_
    obtain ⟨symbol, hold, hnode, -⟩ := h.node?_of_spares hexpression hspares hy
    rw [Function.comp, token_of_node? hold, Symbol.precis_token, symbol_of_node? hnode]
    rfl
  have hlength : ((kept.map tree.token).map Token.precis).length = kept.length := by simp
  obtain ⟨hnumerator, -⟩ := hslots (tree.nextId + 1) List.mem_cons_self
  obtain ⟨grown, hgrown, hwellFormed, hgathered⟩ :=
    hmade.run_fillNumerator_of_collects hid hlisting' hnumerator hprecis rfl (by
      rwa [← hlength, List.take_left, List.drop_left])
  exact ⟨made, grown, hadd, symbol_of_node? hid, hgrown,
    hgathered.divided h hexpression hspares hlisting' hid hslots hwellFormed⟩

/-- The start of the denominator has the first place in it. -/
theorem Divided.position_eq (h : tree.Divided grown expression owner start kept run) :
    grown.position (tree.nextId + 4) = .ok (tree.nextId + 3, 0) := by
  have hsplit : grown.node? (tree.nextId + 3) =
      some ⟨some tree.nextId, .expression ([] ++ (tree.nextId + 4) :: [])⟩ := h.denominator
  exact h.wellFormed.position_of_split h.starts.2 hsplit

namespace Divided

section

variable (h : tree.WellFormed)
  (hexpression : tree.node? expression = some ⟨owner, .expression (start :: (kept ++ run))⟩)
  (hdivided : tree.Divided grown expression owner start kept run) (hlater : later.WellFormed)
  (hkeep : ∀ y node, ¬ grown.Inside y (tree.nextId + 3) → grown.node? y = some node →
    later.node? y = some node)

include hdivided hkeep

/-- If nothing changes but inside the denominator, all but its list and its start is kept. -/
theorem node?_later {y : NodeId} {node : Node} (hslot : y ≠ tree.nextId + 3)
    (hstart : y ≠ tree.nextId + 4) (hnode : grown.node? y = some node) :
    later.node? y = some node := by
  refine hkeep y node (fun hinside => ?_) hnode
  obtain heq | heq := hdivided.wellFormed.eq_of_inside_empty hdivided.denominator
    hdivided.starts.2 hinside
  · exact hslot heq
  · exact hstart heq

include h hexpression hlater

/-- Every symbol of the expression goes on showing its glyph, in the numerator or outside of it. -/
theorem glyph?_later {id : NodeId} (hid : id ∈ kept ++ run) :
    later.glyph? id = tree.glyph? id := by
  have hkept : ∀ {y node}, tree.node? y = some node → ∀ {node'}, grown.node? y = some node' →
      later.node? y = some node' := fun hold _ hnode =>
    hdivided.node?_later hkeep (ne_nextId_add_of_node? hold 3) (ne_nextId_add_of_node? hold 4) hnode
  obtain ⟨symbol, hnode⟩ := h.node?_of_mem hexpression (List.mem_cons_of_mem _ hid)
  obtain ⟨parent, hgrown⟩ := symbol_eq_ok_iff.mp
    (hdivided.symbols id hid symbol (symbol_of_node? hnode))
  have houtside : ¬ tree.Inside expression id :=
    (h.grounded (isLive_iff.mpr ⟨_, hnode⟩)).acyclic (parent?_of_node? hnode)
  refine h.glyph?_congr hlater (symbol_of_node? hnode) (symbol_of_node? (hkept hnode hgrown))
    fun z hlive hinside hne => ?_
  obtain ⟨node, hz⟩ := isLive_iff.mp hlive
  rw [hz]
  refine hkept hz (hdivided.rest z node (fun hmem => ?_) ?_ hz)
  · -- another symbol of the expression is not inside this one
    obtain ⟨_, hz'⟩ := h.node?_of_mem hexpression
      (List.mem_cons_of_mem _ (List.mem_append_right _ hmem))
    exact houtside (hinside.above hne (parent?_of_node? hz'))
  · rintro rfl
    exact houtside hinside

/-- Whatever comes into the denominator, the expression shows what is left of it and the fraction,
whose numerator shows what the symbols in it have shown before. -/
theorem line_eq : later.line expression = kept.filterMap tree.glyph? ++
    [.fraction (run.filterMap tree.glyph?) (later.line (tree.nextId + 3))] := by
  have hlisting := hdivided.node?_later hkeep (ne_nextId_add_of_node? hexpression 3)
    (ne_nextId_add_of_node? hexpression 4) hdivided.listing
  have hfraction := hdivided.node?_later hkeep (by simp) (by simp) hdivided.fraction
  have hnumerator := hdivided.node?_later hkeep (by simp) (by simp) hdivided.numerator
  have hkept : kept.filterMap later.glyph? = kept.filterMap tree.glyph? :=
    List.filterMap_congr fun y hy =>
      hdivided.glyph?_later h hexpression hlater hkeep (List.mem_append_left _ hy)
  have hrun : later.line (tree.nextId + 1) = run.filterMap tree.glyph? := by
    rw [hlater.line_of_start hnumerator]
    exact List.filterMap_congr fun y hy =>
      hdivided.glyph?_later h hexpression hlater hkeep (List.mem_append_right _ hy)
  rw [hlater.line_of_start hlisting, List.filterMap_append, hkept, List.filterMap_cons,
    glyph?_of_node? hfraction, ← hrun]
  rfl

end

end Divided

end Tree

/-! ## Typing -/

namespace Editor

/-- An editor after characters have been typed one by one, some of which may have been refused. -/
def typed (text : List Char) (editor : Editor) : Editor :=
  text.foldl (fun editor c => (Call.insertChar c).edit.after editor) editor

/-- What is typed into an editor to which a session leads leads to such an editor again. -/
theorem Reachable.typed {editor : Editor} (h : editor.Reachable) (text : List Char) :
    (editor.typed text).Reachable := by
  unfold Editor.typed
  induction text generalizing editor with
  | nil => exact h
  | cons c text ih => exact ih (.call _ h)

variable {editor : Editor} {front operand : Line} {around : Formula → Formula} {value : Formula}

/-- A fraction which is typed at the end of an expression takes what a numerator takes there, and
the cursor goes into its denominator. -/
theorem exists_insert_fraction (h : editor.tree.WellFormed)
    (hfills : editor.settings.fillsNumerator = true) {expression start : NodeId}
    {owner : Option NodeId} {kept run : List NodeId}
    (hexpression : editor.tree.node? expression =
      some ⟨owner, .expression (start :: (kept ++ run))⟩)
    (hcursor : (kept ++ run).getLast? = some editor.cursor)
    (hcollects : Numerator.Collects (Line.precis (kept.filterMap editor.tree.glyph?))
      (Line.precis (run.filterMap editor.tree.glyph?))) :
    ∃ grown, (insert .fraction).run editor =
        .ok editor.tree.nextId ⟨grown, editor.tree.nextId + 4, editor.settings⟩ ∧
      editor.tree.Divided grown expression owner start kept run := by
  obtain ⟨made, grown, hadd, hsymbol, hfill, hdivided⟩ :=
    h.exists_divided hexpression hcursor hcollects
  obtain ⟨symbol, hnode⟩ := h.node?_of_mem hexpression
    (List.mem_cons_of_mem _ (List.mem_of_getLast? hcursor))
  obtain ⟨index, hposition⟩ := h.exists_position hnode
  have hcollect : (if Stroke.fraction = .fraction ∧ editor.settings.fillsNumerator
      then onTree (Tree.fillNumerator editor.tree.nextId) else pure false : Edit Editor Bool).run
        { editor with tree := made } = .ok true { editor with tree := grown } := by
    rw [if_pos ⟨rfl, hfills⟩]
    exact run_onTree_of_ok hfill
  have hnext : continuation editor.tree.nextId (Stroke.fraction.symbol editor.tree.nextId) true
      grown = .ok (editor.tree.nextId + 4) := by
    show grown.first (editor.tree.nextId + 3) = _
    rw [Tree.first, Tree.items_of_node? hdivided.denominator]
    rfl
  exact ⟨grown, run_insert_of hposition hadd hsymbol hcollect hnext, hdivided⟩

/-- A fraction which is typed at the end of the field after an operand is put in with the operand as
its numerator, and the cursor goes into the denominator, which is empty. However that is filled
then, the field denotes the fraction, added to what led to the operand. -/
theorem Reachable.denotes_fraction (h : editor.Reachable)
    (hfills : editor.settings.fillsNumerator = true) (hfront : Line.Leads front around)
    (hoperand : Line.Operand operand value)
    (hline : editor.tree.line Tree.root = front ++ operand)
    (hcursor : editor.tree.last Tree.root = .ok editor.cursor) :
    ∃ id slot next, (insert .fraction).run editor = .ok id next ∧
      next.tree.position next.cursor = .ok (slot, 0) ∧
      next.tree.items slot = .ok [next.cursor] ∧
      ∀ later : Editor, later.tree.WellFormed →
        (∀ y node, ¬ next.tree.Inside y slot → next.tree.node? y = some node →
          later.tree.node? y = some node) →
        ∀ filling, later.tree.formula slot = .ok filling →
          later.formula = .ok (around (.binary .divide value filling)) := by
  have hwell := Tree.Reachable.wellFormed ⟨editor, h, rfl⟩
  obtain ⟨items, hroot⟩ := hwell.root
  obtain ⟨start, others, rfl, -, -⟩ := (hwell.lists hroot).start
  -- the line divides the symbols behind the start
  rw [hwell.line_of_start hroot] at hline
  obtain ⟨kept, run, rfl, rfl, rfl⟩ := List.filterMap_eq_append_iff.mp hline
  have hlast : (kept ++ run).getLast? = some editor.cursor := by
    have hne : kept ++ run ≠ [] := by
      intro hnil
      obtain ⟨-, rfl⟩ := List.append_eq_nil_iff.mp hnil
      cases hoperand.formula_eq
    obtain ⟨_, hitems, hlast⟩ := Tree.last_eq_ok_iff.mp hcursor
    rw [Tree.items_of_node? hroot] at hitems
    cases hitems
    rwa [List.getLast?_cons_of_ne_nil hne] at hlast
  obtain ⟨grown, hrun, hdivided⟩ :=
    exists_insert_fraction hwell hfills hroot hlast (hoperand.collects hfront)
  refine ⟨_, _, _, hrun, hdivided.position_eq, Tree.items_of_node? hdivided.denominator,
    fun later hlater hkeep filling hfilling => ?_⟩
  obtain ⟨laterItems, hlaterRoot⟩ := hlater.root
  refine Tree.formula_eq_ok_iff.mpr ⟨⟨laterItems, Tree.items_of_node? hlaterRoot⟩, ?_⟩
  rw [Tree.Divided.line_eq hwell hroot hdivided hlater hkeep]
  exact hfront.formula_eq
    (.fraction hoperand.formula_eq (Tree.formula_eq_ok_iff.mp hfilling).2)

set_option maxRecDepth 10000 in
/-- When `2+(|x|)` and a fraction have been typed, and `3` in its denominator, the field denotes the
sum of a number and a fraction. -/
theorem denotes_typed_fraction :
    let editor := (new {}).typed ['2', '+', '(', '|', 'x', '|', ')']
    let next := (Call.insert .fraction).edit.after editor
    let later := next.typed ['3']
    let operand : Line := bracketed [.bar, .atom 'x', .bar]
    let value : Formula := .unary .abs (.identifier 'x')
    editor.Reachable ∧ editor.settings.fillsNumerator = true ∧ Line.Operand operand value ∧
      editor.tree.line Tree.root = [.atom '2', .atom '+'] ++ operand ∧
      editor.tree.last Tree.root = .ok editor.cursor ∧
      (∃ id, (insert .fraction).run editor = .ok id next) ∧
      next.tree.position next.cursor = .ok (12, 0) ∧
      later.tree.formula 12 = .ok (.number "3") ∧
      later.formula =
        .ok (.binary .plus (.number "2") (.binary .divide value (.number "3"))) := by
  intro editor next later operand value
  have hreach : editor.Reachable := Reachable.typed (.new {}) _
  have hlater : later.Reachable := (Reachable.call (.insert .fraction) hreach).typed _
  have hfills : editor.settings.fillsNumerator = true := by decide +kernel
  have hfront : Line.Leads [.atom '2', .atom '+'] (.binary .plus (.number "2")) :=
    @Line.Leads.sum [.atom '2'] _ rfl
  have hoperand : Line.Operand operand value := .group rfl
  have hline : editor.tree.line Tree.root = [.atom '2', .atom '+'] ++ operand := rfl
  have hcursor : editor.tree.last Tree.root = .ok editor.cursor := by decide +kernel
  have hposition : next.tree.position next.cursor = .ok (12, 0) := by decide +kernel
  have hfilling : later.tree.formula 12 = .ok (.number "3") := by decide +kernel
  have hsame : ∀ y < 14, y ≠ 12 → later.tree.node? y = next.tree.node? y := by decide +kernel
  have hsize : next.tree.nextId = 14 := by decide +kernel
  have hnext : next = (insert .fraction).after editor := after_map _ _ editor
  -- from here on only these facts count, and nothing has to be evaluated any more
  clear_value later next editor
  obtain ⟨id, slot, found, hrun, hplace, -, hall⟩ :=
    hreach.denotes_fraction hfills hfront hoperand hline hcursor
  obtain rfl : next = found := hnext.trans (after_of_ok hrun)
  rw [hposition] at hplace
  cases hplace
  refine ⟨hreach, hfills, hoperand, hline, hcursor, ⟨id, hrun⟩, hposition, hfilling, ?_⟩
  have hwell := Tree.Reachable.wellFormed ⟨later, hlater, rfl⟩
  refine hall later hwell (fun y node hout hnode => ?_) _ hfilling
  have hold := Tree.lt_nextId_of_node? hnode
  rw [hsize] at hold
  rw [hsame y hold fun heq => hout (heq ▸ Tree.Inside.refl _), hnode]

end Editor

end FormulaEditor
