import FormulaEditor.Proofs.Line.Ranges
import FormulaEditor.Proofs.Tree.Grammar

/-!
# Reading a tree by positions

An expression can also be read by positions: in its precis, in the partners of its delimiters, and
in its list of symbols, where the composite symbols are looked up (`Tree.reading`). A bounded walk
goes down into their slots. In a well-formed tree every access finds what it looks for and the bound
is never met, so that each expression has the same formula, or is refused for the same reason, as
without positions (`Tree.WellFormed.reading_eq`). So what is read by positions is the formula which
the grammar derives (`Tree.WellFormed.reading_eq_ok_iff_derives`).
-/

set_option autoImplicit false

namespace FormulaEditor

/-- What is read inside a symbol, which must not be empty. -/
def Checked.filled : Checked Formula → Checked Formula
  | .error (.refused .emptyExpression) => .error (.refused (.cannotParse .emptySlot))
  | outcome => outcome

/-- What is inside a symbol is refused if it is empty, with checks as without them. -/
theorem Checked.filled_answer (tokens : List Token) :
    filled (answer (Token.formula tokens)) = answer (Token.slot tokens) := by
  rw [Token.slot]
  cases Token.formula tokens with
  | error error => cases error <;> rfl
  | ok value => rfl

namespace Tree

/-- What the composite symbol at a position of an expression denotes, if its slots are read by
`slot`. -/
def compositeAt (tree : Tree) (slot : NodeId → Checked Formula) (items : List NodeId)
    (position : Nat) : Checked Formula := do
  match ← Checked.answer (tree.symbol (← Checked.item items position)) with
  | .fraction numerator denominator =>
    let top ← slot numerator
    return .binary .divide top (← slot denominator)
  | .radical radicand => return .squareRoot (← slot radicand)
  | .start | .atom _ | .bracket _ | .bar | .superscript _ =>
    throw (.refused (.cannotParse .mismatch))

/-- What the superscript at a position of an expression denotes, if its slot is read by `slot`. -/
def exponentAt (tree : Tree) (slot : NodeId → Checked Formula) (items : List NodeId)
    (position : Nat) : Checked Formula := do
  match ← Checked.answer (tree.symbol (← Checked.item items position)) with
  | .superscript exponent => slot exponent
  | .start | .atom _ | .bracket _ | .bar | .fraction _ _ | .radical _ =>
    throw (.refused (.cannotParse .mismatch))

/-- Reads an expression by positions, as far as the fuel goes. -/
def readWithin (tree : Tree) : Nat → NodeId → Checked Formula
  | 0, _ => throw .endless
  | fuel + 1, expression => do
    let precis ← Checked.answer (tree.precis expression)
    let partners ← Fence.partners precis
    let items ← Checked.answer (tree.items expression)
    let slot := fun id => Checked.filled (readWithin tree fuel id)
    Survey.read ⟨precis, partners, tree.compositeAt slot items, tree.exponentAt slot items⟩

/-- Reads an expression by positions. -/
def reading (tree : Tree) (expression : NodeId) : Checked Formula :=
  tree.readWithin (tree.cells.size + 1) expression

/-! ## The tokens of an expression -/

/-- The token which a symbol of a tree contributes to its expression. -/
def token (tree : Tree) (id : NodeId) : Token :=
  ((tree.symbol id).toOption.map (Symbol.token tree.line)).getD (.char '_')

variable {tree : Tree} {expression id : NodeId} {owner parent : Option NodeId} {items : List NodeId}

/-- The token of a node which is a symbol is the token of the symbol. -/
theorem token_of_node? {symbol : Symbol} (h : tree.node? id = some ⟨parent, .symbol symbol⟩) :
    tree.token id = symbol.token tree.line := by
  rw [token, symbol_of_node? h]
  rfl

/-- Symbols other than starts show the glyphs of their tokens. -/
theorem tokens_filterMap (h : ∀ id ∈ items, ∃ symbol, symbol ≠ .start ∧
    tree.node? id = some ⟨some expression, .symbol symbol⟩) :
    Glyph.tokens (items.filterMap tree.glyph?) = items.map tree.token := by
  induction items with
  | nil => rfl
  | cons id items ih =>
    obtain ⟨⟨symbol, hstart, hsymbol⟩, hitems⟩ := List.forall_mem_cons.mp h
    rw [List.filterMap_cons, glyph?_of_node? hsymbol, List.map_cons, token_of_node? hsymbol,
      ← ih hitems]
    cases symbol with
    | start => exact absurd rfl hstart
    | _ => rfl

namespace WellFormed

/-- The precis of an expression is the one of its tokens. -/
theorem precis_eq (h : tree.WellFormed)
    (hnode : tree.node? expression = some ⟨owner, .expression items⟩) :
    tree.precis expression = .ok ((items.map tree.token).map Token.precis) := by
  rw [precis, items_of_node? hnode, List.map_map]
  refine mapM_eq_ok fun id hid => ?_
  obtain ⟨symbol, hsymbol⟩ := h.node?_of_mem hnode hid
  rw [Function.comp, token_of_node? hsymbol, Symbol.precis_token, symbol_of_node? hsymbol]
  rfl

/-- The line of an expression has the tokens of its symbols behind the start. -/
theorem exists_tokens (h : tree.WellFormed)
    (hnode : tree.node? expression = some ⟨owner, .expression items⟩) :
    ∃ start tokens, items.map tree.token = start :: tokens ∧ start.precis = '_' ∧
      Glyph.tokens (tree.line expression) = tokens := by
  obtain ⟨first, others, rfl, hfirst, hothers⟩ := (h.lists hnode).start
  refine ⟨_, _, List.map_cons, ?_, ?_⟩
  · rw [token_of_node? hfirst]
    rfl
  · rw [h.line_of_start hnode]
    exact tokens_filterMap hothers

end WellFormed

/-! ## What is read at a position -/

/-- The slots of a symbol are read as the lines which they show. -/
def ReadsSlots (tree : Tree) (slot : NodeId → Checked Formula) (symbol : Symbol) : Prop :=
  ∀ inner ∈ symbol.slots, slot inner = Checked.answer (Token.slot (Glyph.tokens (tree.line inner)))

variable {slot : NodeId → Checked Formula} {symbol : Symbol} {position : Nat} {value : Outcome}

/-- A plain character which stands for a composite symbol elsewhere has no value. -/
theorem eq_error_of_ofChar {c : Char}
    (h : Token.ofChar c = .operand value ∨ Token.ofChar c = .power value) :
    value = .error (.cannotParse .mismatch) := by
  unfold Token.ofChar at h
  by_cases hpercent : c = '%'
  · rw [if_pos hpercent] at h
    obtain ⟨⟨⟩⟩ | ⟨⟨⟩⟩ := h
    rfl
  by_cases hcaret : c = '^'
  · rw [if_neg hpercent, if_pos hcaret] at h
    obtain ⟨⟨⟩⟩ | ⟨⟨⟩⟩ := h
    rfl
  · rw [if_neg hpercent, if_neg hcaret] at h
    obtain ⟨⟨⟩⟩ | ⟨⟨⟩⟩ := h

/-- A plain character is none which stands for a composite symbol. -/
theorem ne_of_token {inner : NodeId → Line} {c : Char} (h : symbol.token inner = .char c) :
    c ≠ '%' ∧ c ≠ '^' := by
  cases symbol with
  | start | bar =>
    cases h
    decide
  | bracket side =>
    cases h
    cases side <;> decide
  | fraction _ _ | superscript _ | radical _ => cases h
  | atom d =>
    have hchar : Token.ofChar d = .char c := h
    unfold Token.ofChar at hchar
    by_cases hpercent : d = '%'
    · rw [if_pos hpercent] at hchar
      cases hchar
    by_cases hcaret : d = '^'
    · rw [if_neg hpercent, if_pos hcaret] at hchar
      cases hchar
    · rw [if_neg hpercent, if_neg hcaret] at hchar
      cases hchar
      exact ⟨hpercent, hcaret⟩

/-- A composite symbol is found where its token is an operand. -/
theorem compositeAt_eq (hitem : items[position]? = some id) (hsymbol : tree.symbol id = .ok symbol)
    (hslots : tree.ReadsSlots slot symbol) (htoken : symbol.token tree.line = .operand value) :
    tree.compositeAt slot items position = Checked.answer value := by
  rw [compositeAt, Checked.item_of_getElem? hitem]
  show (Checked.answer (tree.symbol id) >>= _) = _
  rw [hsymbol]
  cases symbol with
  | start | bracket _ | bar | superscript _ => cases htoken
  | atom c =>
    rw [eq_error_of_ofChar (.inl htoken)]
    rfl
  | fraction numerator denominator =>
    cases htoken
    show (slot numerator >>= _) = _
    rw [hslots numerator List.mem_cons_self]
    cases Token.slot (Glyph.tokens (tree.line numerator)) with
    | error error => rfl
    | ok top =>
      show (slot denominator >>= _) = _
      rw [hslots denominator (List.mem_cons_of_mem _ List.mem_cons_self)]
      show _ = Checked.answer ((Token.slot (Glyph.tokens (tree.line denominator))).map _)
      cases Token.slot (Glyph.tokens (tree.line denominator)) <;> rfl
  | radical radicand =>
    cases htoken
    show (slot radicand >>= _) = _
    rw [hslots radicand List.mem_cons_self]
    cases Token.slot (Glyph.tokens (tree.line radicand)) <;> rfl

/-- A superscript is found where its token is a power. -/
theorem exponentAt_eq (hitem : items[position]? = some id) (hsymbol : tree.symbol id = .ok symbol)
    (hslots : tree.ReadsSlots slot symbol) (htoken : symbol.token tree.line = .power value) :
    tree.exponentAt slot items position = Checked.answer value := by
  rw [exponentAt, Checked.item_of_getElem? hitem]
  show (Checked.answer (tree.symbol id) >>= _) = _
  rw [hsymbol]
  cases symbol with
  | start | bracket _ | bar | fraction _ _ | radical _ => cases htoken
  | atom c =>
    rw [eq_error_of_ofChar (.inr htoken)]
    rfl
  | superscript exponent =>
    cases htoken
    exact hslots exponent List.mem_cons_self

namespace WellFormed

/-- An expression is seen as the tokens of its symbols. -/
theorem shows (h : tree.WellFormed)
    (hnode : tree.node? expression = some ⟨owner, .expression items⟩)
    (hslots : ∀ id ∈ items, ∀ symbol, tree.node? id = some ⟨some expression, .symbol symbol⟩ →
      tree.ReadsSlots slot symbol) (partners : List (Option Nat)) :
    Survey.Shows ⟨(items.map tree.token).map Token.precis, partners, tree.compositeAt slot items,
      tree.exponentAt slot items⟩ (items.map tree.token) := by
  have hfound : ∀ {position : Nat} {token : Token}, (items.map tree.token)[position]? = some token →
      ∃ (id : NodeId) (symbol : Symbol), items[position]? = some id ∧
        tree.symbol id = .ok symbol ∧ tree.ReadsSlots slot symbol ∧
          symbol.token tree.line = token := by
    intro position token htoken
    rw [List.getElem?_map] at htoken
    obtain ⟨id, hitem, rfl⟩ := Option.map_eq_some_iff.mp htoken
    have hid := List.mem_of_getElem? hitem
    obtain ⟨symbol, hsymbol⟩ := h.node?_of_mem hnode hid
    exact ⟨id, symbol, hitem, symbol_of_node? hsymbol, hslots id hid symbol hsymbol,
      (token_of_node? hsymbol).symm⟩
  constructor
  · rfl
  · intro position value hvalue
    obtain ⟨id, symbol, hitem, hsymbol, hreads, htoken⟩ := hfound hvalue
    exact compositeAt_eq hitem hsymbol hreads htoken
  · intro position value hvalue
    obtain ⟨id, symbol, hitem, hsymbol, hreads, htoken⟩ := hfound hvalue
    exact exponentAt_eq hitem hsymbol hreads htoken
  · intro position c hc
    obtain ⟨id, symbol, -, -, -, htoken⟩ := hfound hc
    exact ne_of_token htoken

/-- With enough fuel to get to the bottom an expression is read as the line which it shows. -/
theorem readWithin_eq (h : tree.WellFormed) {fuel : Nat}
    (hnode : tree.node? expression = some ⟨owner, .expression items⟩)
    (hfuel : tree.cells.size < fuel + (tree.ancestors expression).length) :
    tree.readWithin fuel expression =
      Checked.answer (Token.formula (Glyph.tokens (tree.line expression))) := by
  have hbound : (tree.ancestors expression).length ≤ tree.cells.size :=
    (h.grounded (isLive_iff.mpr ⟨_, hnode⟩)).length_ancestors_le
  induction fuel generalizing expression owner items with
  | zero => omega
  | succ fuel ih =>
    -- a slot is two steps further down, while only one unit of fuel is used
    have hslots : ∀ id ∈ items, ∀ symbol,
        tree.node? id = some ⟨some expression, .symbol symbol⟩ →
          tree.ReadsSlots (fun id => Checked.filled (tree.readWithin fuel id)) symbol := by
      intro id hid symbol hsymbol slot hslot
      obtain ⟨⟨inner, hslotNode⟩, hslotParent, hidParent⟩ := h.slot_below hsymbol hslot
      have hslotGround := h.grounded (isLive_iff.mpr ⟨_, hslotNode⟩)
      have hidGround := h.grounded (isLive_iff.mpr ⟨_, hsymbol⟩)
      have hslotLength := hslotGround.length_ancestors hslotParent
      have hidLength := hidGround.length_ancestors hidParent
      show Checked.filled (tree.readWithin fuel slot) = _
      rw [ih hslotNode (by omega) hslotGround.length_ancestors_le]
      exact Checked.filled_answer _
    obtain ⟨start, tokens, hmarks, hstart, hline⟩ := h.exists_tokens hnode
    have hplain : ∀ token ∈ [start], token.precis ∉ Fence.delimiters := by
      rintro token htoken
      rw [List.mem_singleton.mp htoken, hstart]
      decide
    have hpaired : Fence.Paired Token.precis (start :: tokens) 1
        (Fence.group Token.precis 1 tokens)
        (Fence.partners ((start :: tokens).map Token.precis)) :=
      Fence.paired_group Token.precis hplain tokens
    rw [readWithin, h.precis_eq hnode]
    show (Fence.partners ((items.map tree.token).map Token.precis) >>= _) = _
    have hshows := h.shows hnode hslots
    rw [hline, items_of_node? hnode]
    rw [hmarks] at hshows ⊢
    generalize hgroup : Fence.group Token.precis 1 tokens = grouping,
      Fence.partners ((start :: tokens).map Token.precis) = pairing at hpaired ⊢
    cases hpaired with
    | error _ =>
      rw [Token.formula, hgroup]
      rfl
    | ok _ laid => exact Survey.read_eq (hshows _) hstart hgroup laid

/-- Reading an expression by positions leads to its formula, or to the reason why it has none. -/
theorem reading_eq (h : tree.WellFormed) (expression : NodeId) :
    tree.reading expression = Checked.answer (tree.formula expression) := by
  cases hitems : tree.items expression with
  | error error =>
    rw [reading, readWithin, precis, formula, hitems]
    rfl
  | ok items =>
    obtain ⟨owner, hnode⟩ := items_eq_ok_iff.mp hitems
    rw [reading, h.readWithin_eq hnode (by omega), formula, hitems]
    rfl

/-- Reading an expression by positions leads to the formula which the grammar derives for its
spans, if it derives one, and to no formula otherwise. -/
theorem reading_eq_ok_iff_derives (h : tree.WellFormed) {content : List (Span Symbol)}
    (hcontent : tree.spans expression = .ok content) {value : Formula} :
    tree.reading expression = .ok value ↔
      ∃ words, tree.Reads content words ∧ Lexeme.Sum words value := by
  rw [h.reading_eq, Checked.answer_eq_ok_iff, h.formula_eq_ok_iff hcontent]

end WellFormed

end Tree

end FormulaEditor
