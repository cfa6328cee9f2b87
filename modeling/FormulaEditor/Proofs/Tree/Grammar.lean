import FormulaEditor.Proofs.Line.Derivation
import FormulaEditor.Proofs.Line.Grouping
import FormulaEditor.Proofs.Line.Lexing
import FormulaEditor.Proofs.Tree.Display
import FormulaEditor.Proofs.Tree.Invariance

/-!
# The grammar of expressions

Which formula an expression denotes, as a grammar over its symbols. Fences are found first, as the
delimiters pair. Then the symbols between them are cut greedily into words, a fence or a composite
symbol being a word if what is inside denotes a formula (`Tree.Reads`), and the words are read by
the grammar of sums, products and terms (`Lexeme.Sum`). An expression whose delimiters pair has a
formula exactly if this grammar derives it (`Tree.formula_eq_ok_iff_derives`). It is also what
reading the expression by positions leads to (`Tree.WellFormed.reading_eq_ok_iff_derives`).
-/

set_option autoImplicit false

namespace FormulaEditor

open Lexeme (Sum)

/-- What a symbol contributes to the tokens of its expression, if its slots show the given lines.
-/
def Symbol.token (inner : NodeId → Line) (symbol : Symbol) : Token :=
  ((symbol.glyph? inner).map Glyph.token).getD (.char '_')

/-- The tokens of spans of symbols. -/
def Symbol.tokens (inner : NodeId → Line) (spans : List (Span Symbol)) : List Token :=
  Span.tokens (Span.mapAll (Symbol.token inner) spans)

namespace Tree

/-- The symbols of an expression after its start, grouped by their fences. -/
def spans (tree : Tree) (expression : NodeId) : Except Error (List (Span Symbol)) := do
  (Fence.group Symbol.precis 1 (← tree.units expression)).mapError .unmatchedDelimiter

/-- The spans of symbols which can be cut into given words. -/
inductive Reads (tree : Tree) : List (Span Symbol) → List Lexeme → Prop
  | nil : Reads tree [] []
  /-- Plain characters are cut greedily. -/
  | word {spans rest : List (Span Symbol)} {word : Lexeme} {words : List Lexeme}
      (front : Lexeme.Begins (fun c => .single (.atom c)) spans word rest)
      (tail : Reads tree rest words) : Reads tree spans (word :: words)
  | brackets {content rest : List (Span Symbol)} {inner words : List Lexeme} {value : Formula}
      (inside : Reads tree content inner) (sum : Sum inner value) (tail : Reads tree rest words) :
      Reads tree (.enclosed .brackets content :: rest) (.operand (.ok value) :: words)
  | bars {content rest : List (Span Symbol)} {inner words : List Lexeme} {value : Formula}
      (inside : Reads tree content inner) (sum : Sum inner value) (tail : Reads tree rest words) :
      Reads tree (.enclosed .bars content :: rest) (.operand (.ok (.unary .abs value)) :: words)
  | fraction {numerator denominator : NodeId} {above below rest : List (Span Symbol)}
      {top bottom words : List Lexeme} {dividend divisor : Formula}
      (above_eq : tree.spans numerator = .ok above) (insideTop : Reads tree above top)
      (sumTop : Sum top dividend)
      (below_eq : tree.spans denominator = .ok below) (insideBottom : Reads tree below bottom)
      (sumBottom : Sum bottom divisor) (tail : Reads tree rest words) :
      Reads tree (.single (.fraction numerator denominator) :: rest)
        (.operand (.ok (.binary .divide dividend divisor)) :: words)
  | radical {radicand : NodeId} {content rest : List (Span Symbol)} {inner words : List Lexeme}
      {value : Formula} (content_eq : tree.spans radicand = .ok content)
      (inside : Reads tree content inner) (sum : Sum inner value) (tail : Reads tree rest words) :
      Reads tree (.single (.radical radicand) :: rest)
        (.operand (.ok (.squareRoot value)) :: words)
  | superscript {exponent : NodeId} {content rest : List (Span Symbol)}
      {inner words : List Lexeme} {value : Formula} (content_eq : tree.spans exponent = .ok content)
      (inside : Reads tree content inner) (sum : Sum inner value) (tail : Reads tree rest words) :
      Reads tree (.single (.superscript exponent) :: rest) (.power (.ok value) :: words)

end Tree

/-! ## Symbols as tokens -/

/-- A symbol and its token are grouped alike. -/
theorem Symbol.precis_token (inner : NodeId → Line) (symbol : Symbol) :
    (symbol.token inner).precis = symbol.precis := by
  cases symbol with
  | atom c =>
    show (Token.ofChar c).precis = c
    by_cases hpercent : c = '%'
    · subst hpercent
      rfl
    by_cases hcaret : c = '^'
    · subst hcaret
      rfl
    rw [Token.ofChar, if_neg hpercent, if_neg hcaret]
    rfl
  | _ => rfl

/-- The tokens of what symbols show are the tokens of the symbols. -/
theorem Symbol.tokens_filterMap (inner : NodeId → Line) {symbols : List Symbol}
    (h : ∀ symbol ∈ symbols, symbol ≠ .start) :
    Glyph.tokens (symbols.filterMap (Symbol.glyph? inner)) = symbols.map (Symbol.token inner) := by
  induction symbols with
  | nil => rfl
  | cons symbol symbols ih =>
    have ih := ih fun other hother => h other (List.mem_cons_of_mem _ hother)
    cases symbol with
    | start => exact absurd rfl (h _ List.mem_cons_self)
    | _ => exact congrArg (_ :: ·) ih

/-- An ordinary character is only seen where it stands as a plain character. -/
theorem Symbol.shows_tokens (inner : NodeId → Line) :
    Lexeme.Shows (fun c => Span.single (.atom c)) (Symbol.tokens inner) := by
  intro c hc spans tokens
  have hordinary : c ≠ '%' ∧ c ≠ '^' ∧ c ≠ '(' ∧ c ≠ ')' ∧ c ≠ '|' ∧ c ≠ '_' := by
    simpa [Lexeme.Ordinary] using hc
  obtain ⟨hpercent, hcaret, hopening, hclosing, hbar, hstart⟩ := hordinary
  -- only two characters stand for something else, and neither of them is ordinary
  have hatom : ∀ d, Token.ofChar d = .char c → d = c := by
    intro d hd
    rw [Token.ofChar] at hd
    split at hd
    · cases hd
    split at hd
    · cases hd
    · exact Token.char.inj hd
  constructor
  · intro h
    cases spans with
    | nil => cases h
    | cons span rest =>
      obtain ⟨hspan, hrest⟩ := List.cons.inj h
      refine ⟨rest, ?_, hrest⟩
      cases span with
      | enclosed fence content => cases hspan
      | single symbol =>
        cases symbol with
        | start => exact absurd (Token.char.inj hspan).symm hstart
        | atom d => rw [hatom d hspan]
        | bracket side =>
          cases side with
          | opening => exact absurd (Token.char.inj hspan).symm hopening
          | closing => exact absurd (Token.char.inj hspan).symm hclosing
        | bar => exact absurd (Token.char.inj hspan).symm hbar
        | fraction numerator denominator => cases hspan
        | superscript exponent => cases hspan
        | radical radicand => cases hspan
  · rintro ⟨rest, rfl, rfl⟩
    have htoken : Token.ofChar c = .char c := by rw [Token.ofChar, if_neg hpercent, if_neg hcaret]
    show Token.ofChar c :: _ = _
    rw [htoken]
    rfl

/-- Spans which begin with a plain character begin with a word, if it is no stray one. -/
theorem Symbol.exists_begins {inner : NodeId → Line} {spans : List (Span Symbol)} {c : Char}
    {tokens : List Token} (htokens : Symbol.tokens inner spans = .char c :: tokens)
    (hvalued : ∀ word ∈ Lexeme.words (Symbol.tokens inner spans), word.Valued) :
    ∃ word rest, Lexeme.Begins (fun c => .single (.atom c)) spans word rest ∧
      Lexeme.words (Symbol.tokens inner spans) =
        word :: Lexeme.words (Symbol.tokens inner rest) := by
  obtain ⟨word, after, hbegins⟩ | ⟨d, after, hstray⟩ := Lexeme.exists_begins c tokens
  · rw [← htokens] at hbegins
    obtain ⟨rest, hfront, rfl⟩ := (Symbol.shows_tokens inner).exists_begins hbegins
    exact ⟨word, rest, hfront, Lexeme.words_of_begins hbegins⟩
  · rw [← htokens] at hstray
    rw [hstray] at hvalued
    exact absurd (hvalued _ List.mem_cons_self) id

/-- The items of spans one after the other are those of all of them. -/
theorem Span.allItems_append {α : Type} (left right : List (Span α)) :
    Span.allItems (left ++ right) = Span.allItems left ++ Span.allItems right := by
  induction left with
  | nil => rfl
  | cons span left ih => rw [List.cons_append, allItems, allItems, ih, List.append_assoc]

/-- What stands behind a span and others is smaller than all of them. -/
theorem Span.sizeOf_lt {α : Type} [SizeOf α] (span : Span α) (front rest : List (Span α)) :
    sizeOf rest < sizeOf (span :: (front ++ rest)) := by
  induction front generalizing span with
  | nil =>
    rw [List.nil_append, List.cons.sizeOf_spec]
    omega
  | cons next front ih =>
    have hnext := ih next
    rw [List.cons_append, List.cons.sizeOf_spec]
    omega

/-- A line inside a glyph has a formula exactly if it has one as a line of its own. -/
theorem Token.slot_eq_ok_iff {tokens : List Token} {value : Formula} :
    Token.slot tokens = .ok value ↔ Token.formula tokens = .ok value := by
  rw [Token.slot]
  cases Token.formula tokens with
  | error e => cases e <;> simp
  | ok found => simp

namespace Tree

variable {tree : Tree}

/-- The line of an expression denotes a formula if its symbols are grouped into spans whose words
are a sum. -/
theorem WellFormed.line_eq_ok_iff (h : tree.WellFormed) {expression : NodeId}
    {owner : Option NodeId} {items : List NodeId}
    (hnode : tree.node? expression = some ⟨owner, .expression items⟩) {value : Formula} :
    Token.formula (Glyph.tokens (tree.line expression)) = .ok value ↔
      ∃ spans, tree.spans expression = .ok spans ∧
        Sum (Lexeme.words (Symbol.tokens tree.line spans)) value := by
  obtain ⟨symbols, hunits, hline, hsymbols⟩ := h.exists_units hnode
  have hspans : tree.spans expression =
      (Fence.group Symbol.precis 1 symbols).mapError .unmatchedDelimiter := by
    rw [spans, hunits]
    rfl
  rw [hline, Symbol.tokens_filterMap _ fun symbol hmem => (hsymbols symbol hmem).1, hspans,
    Token.formula, Fence.group_map (Symbol.precis_token tree.line)]
  cases Fence.group Symbol.precis 1 symbols with
  | error position =>
    constructor
    · rintro ⟨⟩
    · rintro ⟨_, ⟨⟩, _⟩
  | ok spans =>
    have hgroup : (∃ found, (Except.ok spans : Except Nat _).mapError Error.unmatchedDelimiter =
        .ok found ∧ Sum (Lexeme.words (Symbol.tokens tree.line found)) value) ↔
          Sum (Lexeme.words (Symbol.tokens tree.line spans)) value := by
      constructor
      · rintro ⟨_, ⟨⟩, hsum⟩
        exact hsum
      · intro hsum
        exact ⟨spans, rfl, hsum⟩
    rw [hgroup]
    -- the line of no symbols is refused, and no words are no sum
    cases spans with
    | nil =>
      constructor
      · rintro ⟨⟩
      · intro hsum
        exact absurd rfl hsum.ne_nil
    | cons span spans => exact Lexeme.sum_eq_ok_iff

/-- What has spans is an expression. -/
theorem node?_of_spans {expression : NodeId} {content : List (Span Symbol)}
    (h : tree.spans expression = .ok content) :
    ∃ owner items, tree.node? expression = some ⟨owner, .expression items⟩ := by
  rw [spans, units] at h
  cases hitems : tree.items expression with
  | error e =>
    rw [hitems] at h
    cases h
  | ok items =>
    obtain ⟨owner, hnode⟩ := items_eq_ok_iff.mp hitems
    exact ⟨owner, items, hnode⟩

/-- A slot whose words are a sum is read as its value. -/
theorem WellFormed.slot_eq_ok (h : tree.WellFormed) {slot : NodeId} {content : List (Span Symbol)}
    {words : List Lexeme} {value : Formula} (hcontent : tree.spans slot = .ok content)
    (hwords : Lexeme.words (Symbol.tokens tree.line content) = words) (hsum : Sum words value) :
    Token.slot (Glyph.tokens (tree.line slot)) = .ok value := by
  obtain ⟨owner, items, hnode⟩ := node?_of_spans hcontent
  rw [Token.slot_eq_ok_iff, h.line_eq_ok_iff hnode]
  exact ⟨content, hcontent, hwords ▸ hsum⟩

/-- The grammar cuts spans into the words of their tokens. -/
theorem WellFormed.words_of_reads (h : tree.WellFormed) {content : List (Span Symbol)}
    {words : List Lexeme} (hreads : tree.Reads content words) :
    Lexeme.words (Symbol.tokens tree.line content) = words := by
  induction hreads with
  | nil => rfl
  | word front _ ih =>
    rw [Lexeme.words_of_begins ((Symbol.shows_tokens tree.line).begins front), ih]
  | @brackets content rest inner words value _ hsum _ ihInside ih =>
    show Lexeme.words (.operand (Token.sum (Symbol.tokens tree.line content)) ::
      Symbol.tokens tree.line rest) = _
    rw [Token.sum, ihInside, Lexeme.sum_eq_ok_iff.mpr hsum, ← ih]
    exact Lexeme.words_cons _ _
  | @bars content rest inner words value _ hsum _ ihInside ih =>
    show Lexeme.words (.operand ((Token.sum (Symbol.tokens tree.line content)).map (.unary .abs)) ::
      Symbol.tokens tree.line rest) = _
    rw [Token.sum, ihInside, Lexeme.sum_eq_ok_iff.mpr hsum, ← ih]
    exact Lexeme.words_cons _ _
  | @fraction numerator denominator _ _ rest _ _ _ _ _ habove _ hsumTop hbelow _ hsumBottom _
      ihTop ihBottom ih =>
    have htop := h.slot_eq_ok habove ihTop hsumTop
    have hbottom := h.slot_eq_ok hbelow ihBottom hsumBottom
    show Lexeme.words (.operand (do
      let top ← Token.slot (Glyph.tokens (tree.line numerator))
      return .binary .divide top (← Token.slot (Glyph.tokens (tree.line denominator)))) ::
        Symbol.tokens tree.line rest) = _
    rw [htop, hbottom, ← ih]
    exact Lexeme.words_cons _ _
  | @radical radicand _ rest _ _ _ hcontent _ hsum _ ihInside ih =>
    have hslot := h.slot_eq_ok hcontent ihInside hsum
    show Lexeme.words
      (.operand ((Token.slot (Glyph.tokens (tree.line radicand))).map .squareRoot) ::
        Symbol.tokens tree.line rest) = _
    rw [hslot, ← ih]
    exact Lexeme.words_cons _ _
  | @superscript exponent _ rest _ _ _ hcontent _ hsum _ ihInside ih =>
    have hslot := h.slot_eq_ok hcontent ihInside hsum
    show Lexeme.words (.power (Token.slot (Glyph.tokens (tree.line exponent))) ::
      Symbol.tokens tree.line rest) = _
    rw [hslot, ← ih]
    exact Lexeme.words_cons _ _

/-- A slot of a symbol of an expression, which may stand in a fence. -/
def Below (tree : Tree) (expression slot : NodeId) : Prop :=
  (∃ owner items, tree.node? slot = some ⟨owner, .expression items⟩) ∧
    Relation.TransGen (fun child id => tree.parent? child = some id) slot expression

/-- The slots of the symbols in the spans of an expression are below it. -/
theorem WellFormed.below_of_spans (h : tree.WellFormed) {expression : NodeId}
    {content : List (Span Symbol)} (hcontent : tree.spans expression = .ok content) :
    ∀ symbol ∈ Span.allItems content, ∀ slot ∈ symbol.slots, tree.Below expression slot := by
  obtain ⟨owner, items, hnode⟩ := node?_of_spans hcontent
  obtain ⟨symbols, hunits, -, hsymbols⟩ := h.exists_units hnode
  intro symbol hsymbol
  refine (hsymbols symbol ?_).2
  rw [spans, hunits] at hcontent
  cases hgroup : Fence.group Symbol.precis 1 symbols with
  | error position =>
    have herror : (Fence.group Symbol.precis 1 symbols).mapError Error.unmatchedDelimiter =
        .ok content := hcontent
    rw [hgroup] at herror
    cases herror
  | ok found =>
    have hfound : (Fence.group Symbol.precis 1 symbols).mapError Error.unmatchedDelimiter =
        .ok content := hcontent
    rw [hgroup] at hfound
    cases hfound
    exact Fence.mem_of_group hgroup hsymbol

/-- Whether the grammar reads spans as the words of their tokens, as far as they make a sum. -/
def ReadsSums (tree : Tree) (content : List (Span Symbol)) : Prop :=
  ∀ value, Sum (Lexeme.words (Symbol.tokens tree.line content)) value →
    tree.Reads content (Lexeme.words (Symbol.tokens tree.line content))

/-- A fence with a value is read if what it encloses and what comes after it are read. -/
theorem reads_enclosed {fence : Fence} {inner rest : List (Span Symbol)}
    (hvalued : (Lexeme.operand (fence.operand
      (Token.sum (Symbol.tokens tree.line inner)))).Valued)
    (hinner : tree.ReadsSums inner)
    (hrest : tree.Reads rest (Lexeme.words (Symbol.tokens tree.line rest))) :
    tree.Reads (.enclosed fence inner :: rest)
      (Lexeme.words (Symbol.tokens tree.line (.enclosed fence inner :: rest))) := by
  obtain ⟨value, hvalue⟩ := hvalued
  have hwords : Lexeme.words (Symbol.tokens tree.line (.enclosed fence inner :: rest)) =
      .operand (fence.operand (Token.sum (Symbol.tokens tree.line inner))) ::
        Lexeme.words (Symbol.tokens tree.line rest) := Lexeme.words_cons _ _
  rw [hwords]
  cases fence with
  | brackets =>
    have hsum := Lexeme.sum_eq_ok_iff.mp hvalue
    have hread : Token.sum (Symbol.tokens tree.line inner) = .ok value := hvalue
    rw [Fence.operand, hread]
    exact .brackets (hinner value hsum) hsum hrest
  | bars =>
    obtain ⟨found, hread, rfl⟩ := Outcome.eq_ok_of_map hvalue
    have hsum := Lexeme.sum_eq_ok_iff.mp hread
    rw [Fence.operand, hread]
    exact .bars (hinner found hsum) hsum hrest

/-- What is inside a glyph which has a formula there is read by the grammar. -/
theorem WellFormed.reads_slot (h : tree.WellFormed) {expression slot : NodeId} {value : Formula}
    (hslots : ∀ slot, tree.Below expression slot → ∀ content, tree.spans slot = .ok content →
      tree.ReadsSums content)
    (hslot : tree.Below expression slot)
    (hvalue : Token.slot (Glyph.tokens (tree.line slot)) = .ok value) :
    ∃ content words, tree.spans slot = .ok content ∧ tree.Reads content words ∧
      Sum words value := by
  obtain ⟨owner, items, hnode⟩ := hslot.1
  obtain ⟨content, hcontent, hsum⟩ :=
    (h.line_eq_ok_iff hnode).mp (Token.slot_eq_ok_iff.mp hvalue)
  exact ⟨content, _, hcontent, hslots slot hslot content hcontent value hsum, hsum⟩

/-- A composite symbol with a value is read if its slots and what comes after it are read. -/
theorem WellFormed.reads_composite (h : tree.WellFormed) {expression : NodeId} {symbol : Symbol}
    {rest : List (Span Symbol)}
    (hslots : ∀ slot, tree.Below expression slot → ∀ content, tree.spans slot = .ok content →
      tree.ReadsSums content)
    (hcomposite : symbol.isComposite = true)
    (hbelow : ∀ slot ∈ symbol.slots, tree.Below expression slot)
    (hvalued : ∀ word ∈ Lexeme.words (Symbol.tokens tree.line (.single symbol :: rest)),
      word.Valued)
    (hrest : tree.Reads rest (Lexeme.words (Symbol.tokens tree.line rest))) :
    tree.Reads (.single symbol :: rest)
      (Lexeme.words (Symbol.tokens tree.line (.single symbol :: rest))) := by
  cases symbol with
  | start | atom _ | bracket _ | bar => cases hcomposite
  | fraction numerator denominator =>
    have hwords : Lexeme.words
        (Symbol.tokens tree.line (.single (.fraction numerator denominator) :: rest)) =
          .operand (do
            let top ← Token.slot (Glyph.tokens (tree.line numerator))
            return .binary .divide top (← Token.slot (Glyph.tokens (tree.line denominator)))) ::
              Lexeme.words (Symbol.tokens tree.line rest) := Lexeme.words_cons _ _
    rw [hwords] at hvalued ⊢
    obtain ⟨value, hvalue⟩ := hvalued _ List.mem_cons_self
    obtain ⟨top, htop, hdivide⟩ := Outcome.eq_ok_of_bind hvalue
    obtain ⟨bottom, hbottom, -⟩ := Outcome.eq_ok_of_map hdivide
    obtain ⟨above, _, habove, hreadsAbove, hsumAbove⟩ :=
      h.reads_slot hslots (hbelow numerator (by simp [Symbol.slots])) htop
    obtain ⟨below, _, hbelow, hreadsBelow, hsumBelow⟩ :=
      h.reads_slot hslots (hbelow denominator (by simp [Symbol.slots])) hbottom
    rw [htop, hbottom]
    exact .fraction habove hreadsAbove hsumAbove hbelow hreadsBelow hsumBelow hrest
  | superscript exponent =>
    have hwords : Lexeme.words (Symbol.tokens tree.line (.single (.superscript exponent) :: rest)) =
        .power (Token.slot (Glyph.tokens (tree.line exponent))) ::
          Lexeme.words (Symbol.tokens tree.line rest) := Lexeme.words_cons _ _
    rw [hwords] at hvalued ⊢
    obtain ⟨value, hvalue⟩ := hvalued _ List.mem_cons_self
    obtain ⟨content, _, hcontent, hreads, hsum⟩ :=
      h.reads_slot hslots (hbelow exponent (by simp [Symbol.slots])) hvalue
    rw [hvalue]
    exact .superscript hcontent hreads hsum hrest
  | radical radicand =>
    have hwords : Lexeme.words (Symbol.tokens tree.line (.single (.radical radicand) :: rest)) =
        .operand ((Token.slot (Glyph.tokens (tree.line radicand))).map .squareRoot) ::
          Lexeme.words (Symbol.tokens tree.line rest) := Lexeme.words_cons _ _
    rw [hwords] at hvalued ⊢
    obtain ⟨value, hvalue⟩ := hvalued _ List.mem_cons_self
    obtain ⟨found, hslot, rfl⟩ := Outcome.eq_ok_of_map hvalue
    obtain ⟨content, _, hcontent, hreads, hsum⟩ :=
      h.reads_slot hslots (hbelow radicand (by simp [Symbol.slots])) hslot
    rw [hslot]
    exact .radical hcontent hreads hsum hrest

/-- Spans whose words have all they stand for are read by the grammar, if it reads everything
below them. -/
theorem WellFormed.reads_of_valued (h : tree.WellFormed) {expression : NodeId}
    (hslots : ∀ slot, tree.Below expression slot → ∀ content, tree.spans slot = .ok content →
      tree.ReadsSums content)
    (content : List (Span Symbol))
    (hbelow : ∀ symbol ∈ Span.allItems content, ∀ slot ∈ symbol.slots,
      tree.Below expression slot)
    (hvalued : ∀ word ∈ Lexeme.words (Symbol.tokens tree.line content), word.Valued) :
    tree.Reads content (Lexeme.words (Symbol.tokens tree.line content)) := by
  -- the size of the spans falls both behind the first word and inside a fence
  induction hsize : sizeOf content using Nat.strong_induction_on generalizing content with
  | _ size ih =>
  subst hsize
  -- what begins with a plain character begins with a word
  have hchar : ∀ c tokens, Symbol.tokens tree.line content = .char c :: tokens →
      tree.Reads content (Lexeme.words (Symbol.tokens tree.line content)) := by
    intro c tokens htokens
    obtain ⟨word, rest, hfront, hwords⟩ := Symbol.exists_begins htokens hvalued
    obtain ⟨d, text, rfl⟩ := hfront.exists_append
    rw [hwords] at hvalued ⊢
    refine .word hfront (ih _ (Span.sizeOf_lt _ _ rest) rest ?_
      (fun other hother => hvalued other (List.mem_cons_of_mem _ hother)) rfl)
    intro symbol hsymbol
    refine hbelow symbol (List.mem_append_right _ ?_)
    rw [Span.allItems_append]
    exact List.mem_append_right _ hsymbol
  cases content with
  | nil => exact .nil
  | cons span rest =>
    -- any other token is a word of its own
    have hrest : ∀ word, Lexeme.words (Symbol.tokens tree.line (span :: rest)) =
        word :: Lexeme.words (Symbol.tokens tree.line rest) →
          word.Valued ∧ tree.Reads rest (Lexeme.words (Symbol.tokens tree.line rest)) := by
      intro word hwords
      rw [hwords] at hvalued
      refine ⟨hvalued _ List.mem_cons_self, ih _ (Span.sizeOf_lt span [] rest) rest ?_ ?_ rfl⟩
      · exact fun symbol hsymbol => hbelow symbol (List.mem_append_right _ hsymbol)
      · exact fun other hother => hvalued other (List.mem_cons_of_mem _ hother)
    cases span with
    | enclosed fence inner =>
      obtain ⟨hfence, hrest⟩ := hrest _ (Lexeme.words_cons _ _)
      refine reads_enclosed hfence (fun value hsum => ih _ ?_ inner ?_ hsum.valued rfl) hrest
      · rw [List.cons.sizeOf_spec, Span.enclosed.sizeOf_spec]
        omega
      · exact fun symbol hsymbol => hbelow symbol (List.mem_append_left _ hsymbol)
    | single symbol =>
      have hslot := hbelow symbol List.mem_cons_self
      cases symbol with
      | start => exact hchar '_' _ rfl
      | bracket side => exact hchar side.char _ rfl
      | bar => exact hchar '|' _ rfl
      | fraction _ _ | superscript _ | radical _ =>
        exact h.reads_composite hslots rfl hslot hvalued (hrest _ (Lexeme.words_cons _ _)).2
      | atom c =>
        by_cases hpercent : c = '%'
        · subst hpercent
          obtain ⟨⟨_, hvalue⟩, -⟩ := hrest _ (Lexeme.words_cons _ _)
          cases hvalue
        by_cases hcaret : c = '^'
        · subst hcaret
          obtain ⟨⟨_, hvalue⟩, -⟩ := hrest _ (Lexeme.words_cons _ _)
          cases hvalue
        · have htoken : Token.ofChar c = .char c := by
            rw [Token.ofChar, if_neg hpercent, if_neg hcaret]
          exact hchar c (Symbol.tokens tree.line rest) (congrArg (· :: _) htoken)

/-- The grammar reads every expression whose words make a sum. -/
theorem WellFormed.readsSums (h : tree.WellFormed) {expression : NodeId}
    {content : List (Span Symbol)} (hcontent : tree.spans expression = .ok content) :
    tree.ReadsSums content := by
  induction expression using h.wellFounded_child.transGen.induction generalizing content with
  | _ expression ih =>
    intro value hsum
    refine h.reads_of_valued ?_ content (h.below_of_spans hcontent) hsum.valued
    exact fun slot hslot inner hinner => ih slot hslot.2 hinner

/-- In a well-formed tree an expression has the formula which the grammar derives for its spans. -/
theorem WellFormed.formula_eq_ok_iff (h : tree.WellFormed) {expression : NodeId}
    {content : List (Span Symbol)} (hcontent : tree.spans expression = .ok content)
    {value : Formula} :
    tree.formula expression = .ok value ↔ ∃ words, tree.Reads content words ∧ Sum words value := by
  obtain ⟨owner, items, hnode⟩ := node?_of_spans hcontent
  have hformula :
      tree.formula expression = Token.formula (Glyph.tokens (tree.line expression)) := by
    rw [formula, items_of_node? hnode]
    rfl
  rw [hformula, h.line_eq_ok_iff hnode]
  constructor
  · rintro ⟨found, hfound, hsum⟩
    rw [hcontent] at hfound
    cases hfound
    exact ⟨_, h.readsSums hcontent value hsum, hsum⟩
  · rintro ⟨words, hreads, hsum⟩
    exact ⟨content, hcontent, (h.words_of_reads hreads).symm ▸ hsum⟩

/-- An expression whose delimiters pair has a formula exactly if the grammar derives it. -/
theorem formula_eq_ok_iff_derives (h : tree.Reachable) {expression : NodeId}
    {content : List (Span Symbol)} (hcontent : tree.spans expression = .ok content)
    (value : Formula) :
    tree.formula expression = .ok value ↔ ∃ words, tree.Reads content words ∧ Sum words value :=
  h.wellFormed.formula_eq_ok_iff hcontent

/-- What is typed as `2|x|`, with the exponent `3`, is derived as two times the cube of an absolute
value. -/
theorem derives_typed_product :
    let tree := empty.run
      [.create (.atom '2'), .insertAfter 1 2, .create .bar, .insertAfter 2 3, .create (.atom 'x'),
        .insertAfter 3 4, .create .bar, .insertAfter 4 5, .create .superscript, .insertAfter 5 6,
        .create (.atom '3'), .insertAfter 8 9]
    let content := [.single (.atom '2'), .enclosed .bars [.single (.atom 'x')],
      .single (.superscript 7)]
    tree.Reachable ∧ tree.spans root = .ok content ∧ ∃ words, tree.Reads content words ∧
      Sum words (.binary .times (.number "2")
        (.binary .power (.unary .abs (.identifier 'x')) (.number "3"))) := by
  intro tree content
  have hreach : tree.Reachable := reachable_run _
  have hspans : tree.spans root = .ok content := rfl
  exact ⟨hreach, hspans, (formula_eq_ok_iff_derives hreach hspans _).mp rfl⟩

end Tree

end FormulaEditor
