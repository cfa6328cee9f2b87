import FormulaEditor.Proofs.Tree.Descent
import FormulaEditor.Tree.Formula

/-!
# What an expression shows

The line of an expression is found by a bounded walk down. In a well-formed tree the bound is never
met, so that the line of an expression is made of its symbols and of the lines of their slots
(`Tree.WellFormed.line_eq`). It only depends on the nodes inside the expression
(`Tree.WellFormed.line_congr`).
-/

set_option autoImplicit false

namespace FormulaEditor

/-- What a symbol shows, if its slots show the given lines. A start shows nothing. -/
def Symbol.glyph? (inner : NodeId → Line) : Symbol → Option Glyph
  | start => none
  | atom c => some (.atom c)
  | bracket side => some (.bracket side)
  | bar => some .bar
  | fraction numerator denominator => some (.fraction (inner numerator) (inner denominator))
  | superscript exponent => some (.superscript (inner exponent))
  | radical radicand => some (.radical (inner radicand))

/-- The glyph of a symbol depends only on the lines in its slots. -/
theorem Symbol.glyph?_congr {inner other : NodeId → Line} {symbol : Symbol}
    (h : ∀ slot ∈ symbol.slots, other slot = inner slot) :
    symbol.glyph? other = symbol.glyph? inner := by
  cases symbol <;> simp_all [Symbol.glyph?, Symbol.slots]

namespace Tree

variable {tree : Tree}

/-- What a symbol of a tree shows, if it is live. -/
def glyph? (tree : Tree) (id : NodeId) : Option Glyph :=
  (tree.symbol id).toOption.bind (Symbol.glyph? tree.line)

/-- A symbol shows the glyph with the lines in its slots. -/
theorem glyph?_of_node? {id : NodeId} {parent : Option NodeId} {symbol : Symbol}
    (h : tree.node? id = some ⟨parent, .symbol symbol⟩) :
    tree.glyph? id = symbol.glyph? tree.line := by
  rw [glyph?, symbol_of_node? h]
  rfl

/-- The symbols of an expression after its start. -/
def units (tree : Tree) (expression : NodeId) : Except Error (List Symbol) := do
  (← tree.items expression).tail.mapM tree.symbol

/-- With more fuel the line of an expression is made of the lines with less fuel of the slots. -/
theorem lineWithin_succ (fuel : Nat) (expression : NodeId) :
    tree.lineWithin (fuel + 1) expression =
      ((tree.items expression).toOption.getD []).filterMap fun id =>
        (tree.symbol id).toOption.bind (Symbol.glyph? (tree.lineWithin fuel)) := by
  rw [lineWithin]
  congr 1
  funext id
  cases tree.symbol id with
  | error e => rfl
  | ok symbol => cases symbol <;> rfl

namespace WellFormed

/-- A slot of a symbol in an expression is an expression, two steps below it. -/
theorem slot_below (h : tree.WellFormed) {expression id slot : NodeId} {symbol : Symbol}
    (hid : tree.node? id = some ⟨some expression, .symbol symbol⟩) (hslot : slot ∈ symbol.slots) :
    (∃ items, tree.node? slot = some ⟨some id, .expression items⟩) ∧
      tree.parent? slot = some id ∧ tree.parent? id = some expression := by
  obtain ⟨items, hitems⟩ := (h.slots hid).2 slot hslot
  exact ⟨⟨items, hitems⟩, parent?_of_node? hitems, parent?_of_node? hid⟩

/-- A bounded walk down from expressions to the slots of their symbols does not depend on its bound,
if the bound suffices to get to the bottom. -/
theorem walk_eq (h : tree.WellFormed) {α : Type} {walk : Nat → NodeId → α}
    (hstep : ∀ {fuel more expression owner items},
      tree.node? expression = some ⟨owner, .expression items⟩ →
        (∀ id ∈ items, ∀ symbol, tree.symbol id = .ok symbol → ∀ slot ∈ symbol.slots,
          walk fuel slot = walk more slot) →
        walk (fuel + 1) expression = walk (more + 1) expression)
    {fuel more : Nat} {expression : NodeId} {owner : Option NodeId} {items : List NodeId}
    (hnode : tree.node? expression = some ⟨owner, .expression items⟩)
    (hfuel : tree.cells.size < fuel + (tree.ancestors expression).length)
    (hmore : tree.cells.size < more + (tree.ancestors expression).length) :
    walk fuel expression = walk more expression := by
  have hbound : (tree.ancestors expression).length ≤ tree.cells.size :=
    (h.grounded (isLive_iff.mpr ⟨_, hnode⟩)).length_ancestors_le
  induction fuel generalizing more expression owner items with
  | zero => omega
  | succ fuel ih =>
    cases more with
    | zero => omega
    | succ more =>
      refine hstep hnode fun id hid symbol hsymbol slot hslot => ?_
      obtain ⟨found, hfound⟩ := h.node?_of_mem hnode hid
      obtain rfl := Except.ok.inj ((symbol_of_node? hfound).symm.trans hsymbol)
      -- a slot is two steps further down, while only one unit of fuel is used
      obtain ⟨⟨inner, hslotNode⟩, hslotParent, hidParent⟩ := h.slot_below hfound hslot
      have hslotGround := h.grounded (isLive_iff.mpr ⟨_, hslotNode⟩)
      have hidGround := h.grounded (isLive_iff.mpr ⟨_, hfound⟩)
      have hslotLength := hslotGround.length_ancestors hslotParent
      have hidLength := hidGround.length_ancestors hidParent
      exact ih hslotNode (by omega) (by omega) hslotGround.length_ancestors_le

/-- Fuel which suffices to get to the bottom is as good as any. -/
theorem lineWithin_eq (h : tree.WellFormed) {fuel more : Nat} {expression : NodeId}
    {owner : Option NodeId} {items : List NodeId}
    (hnode : tree.node? expression = some ⟨owner, .expression items⟩)
    (hfuel : tree.cells.size < fuel + (tree.ancestors expression).length)
    (hmore : tree.cells.size < more + (tree.ancestors expression).length) :
    tree.lineWithin fuel expression = tree.lineWithin more expression := by
  refine h.walk_eq (fun {fuel more _ _ _} hnode hslots => ?_) hnode hfuel hmore
  rw [lineWithin_succ, lineWithin_succ, items_of_node? hnode]
  refine List.filterMap_congr fun id hid => ?_
  obtain ⟨symbol, hsymbol⟩ := h.node?_of_mem hnode hid
  rw [symbol_of_node? hsymbol]
  exact Symbol.glyph?_congr (hslots id hid symbol (symbol_of_node? hsymbol))

/-- An expression shows its symbols, whose slots show their own lines. -/
theorem line_eq (h : tree.WellFormed) {expression : NodeId} {owner : Option NodeId}
    {items : List NodeId} (hnode : tree.node? expression = some ⟨owner, .expression items⟩) :
    tree.line expression = items.filterMap tree.glyph? := by
  rw [line, lineWithin_succ, items_of_node? hnode]
  refine List.filterMap_congr fun id hid => ?_
  obtain ⟨symbol, hsymbol⟩ := h.node?_of_mem hnode hid
  rw [symbol_of_node? hsymbol, glyph?_of_node? hsymbol]
  refine Symbol.glyph?_congr fun slot hslot => ?_
  obtain ⟨⟨inner, hslotNode⟩, hslotParent, hidParent⟩ := h.slot_below hsymbol hslot
  have hslotLength := (h.grounded (isLive_iff.mpr ⟨_, hslotNode⟩)).length_ancestors hslotParent
  exact (h.lineWithin_eq hslotNode (by omega) (by omega)).symm

/-- The start of an expression shows nothing. -/
theorem line_of_start (h : tree.WellFormed) {expression start : NodeId} {owner : Option NodeId}
    {items : List NodeId}
    (hnode : tree.node? expression = some ⟨owner, .expression (start :: items)⟩) :
    tree.line expression = items.filterMap tree.glyph? := by
  obtain ⟨first, others, hitems, hfirst, -⟩ := (h.lists hnode).start
  cases hitems
  rw [h.line_eq hnode, List.filterMap_cons, glyph?_of_node? hfirst]
  rfl

/-- Trees with the same nodes inside an expression show the same line there. -/
theorem line_congr (h : tree.WellFormed) {other : Tree} (hother : other.WellFormed)
    {expression : NodeId} {owner : Option NodeId} {items : List NodeId}
    (hnode : tree.node? expression = some ⟨owner, .expression items⟩)
    (same : ∀ id, tree.isLive id = true → tree.Inside id expression →
      other.node? id = tree.node? id) :
    other.line expression = tree.line expression := by
  induction expression using h.wellFounded_child.transGen.induction generalizing owner items with
  | _ expression ih =>
    have hsame := same expression (isLive_iff.mpr ⟨_, hnode⟩) (Inside.refl _)
    rw [h.line_eq hnode, hother.line_eq (hsame.trans hnode)]
    refine List.filterMap_congr fun id hid => ?_
    obtain ⟨symbol, hsymbol⟩ := h.node?_of_mem hnode hid
    have hinside : tree.Inside id expression :=
      (Inside.refl id).parent (parent?_of_node? hsymbol)
    have hsameId := same id (isLive_iff.mpr ⟨_, hsymbol⟩) hinside
    rw [glyph?_of_node? hsymbol, glyph?_of_node? (hsameId.trans hsymbol)]
    refine Symbol.glyph?_congr fun slot hslot => ?_
    obtain ⟨⟨inner, hslotNode⟩, hslotParent, hidParent⟩ := h.slot_below hsymbol hslot
    refine ih slot (.tail (.single hslotParent) hidParent) hslotNode ?_
    intro y hlive hy
    exact same y hlive ((hy.parent hslotParent).parent hidParent)

/-- A symbol goes on showing its glyph if the nodes strictly inside it stay as they are, wherever it
stands. -/
theorem glyph?_congr (h : tree.WellFormed) {other : Tree} (hother : other.WellFormed) {id : NodeId}
    {symbol : Symbol} (hid : tree.symbol id = .ok symbol) (hsymbol : other.symbol id = .ok symbol)
    (same : ∀ y, tree.isLive y = true → tree.Inside y id → y ≠ id →
      other.node? y = tree.node? y) : other.glyph? id = tree.glyph? id := by
  obtain ⟨parent, hnode⟩ := symbol_eq_ok_iff.mp hid
  obtain ⟨parent', hnode'⟩ := symbol_eq_ok_iff.mp hsymbol
  rw [glyph?_of_node? hnode, glyph?_of_node? hnode']
  refine Symbol.glyph?_congr fun slot hslot => ?_
  obtain ⟨items, hslotNode⟩ := (h.slots hnode).2 slot hslot
  have hparent : tree.parent? slot = some id := parent?_of_node? hslotNode
  refine h.line_congr hother hslotNode fun y hlive hinside => ?_
  refine same y hlive (hinside.parent hparent) ?_
  rintro rfl
  exact (h.grounded (isLive_iff.mpr ⟨_, hslotNode⟩)).acyclic hparent hinside

/-- Every symbol of an expression after its start is one which can stand there, and its slots are
expressions further down. -/
theorem exists_units (h : tree.WellFormed) {expression : NodeId} {owner : Option NodeId}
    {items : List NodeId} (hnode : tree.node? expression = some ⟨owner, .expression items⟩) :
    ∃ symbols, tree.units expression = .ok symbols ∧
      tree.line expression = symbols.filterMap (Symbol.glyph? tree.line) ∧
      ∀ symbol ∈ symbols, symbol ≠ .start ∧ ∀ slot ∈ symbol.slots,
        (∃ owner items, tree.node? slot = some ⟨owner, .expression items⟩) ∧
          Relation.TransGen (fun child id => tree.parent? child = some id) slot expression := by
  obtain ⟨first, others, rfl, hfirst, hothers⟩ := (h.lists hnode).start
  have : Nonempty Symbol := ⟨.start⟩
  choose! symbol hstart hsymbol using hothers
  have hask : ∀ id ∈ others, tree.symbol id = .ok (symbol id) :=
    fun id hid => symbol_of_node? (hsymbol id hid)
  refine ⟨others.map symbol, ?_, ?_, ?_⟩
  · rw [units, items_of_node? hnode]
    exact mapM_eq_ok hask
  · rw [h.line_of_start hnode, List.filterMap_map]
    exact List.filterMap_congr fun id hid => glyph?_of_node? (hsymbol id hid)
  · intro found hfound
    obtain ⟨id, hid, rfl⟩ := List.mem_map.mp hfound
    refine ⟨hstart id hid, fun slot hslot => ?_⟩
    obtain ⟨⟨inner, hslotNode⟩, hslotParent, hidParent⟩ := h.slot_below (hsymbol id hid) hslot
    exact ⟨⟨_, _, hslotNode⟩, .tail (.single hslotParent) hidParent⟩

end WellFormed

end Tree

end FormulaEditor
