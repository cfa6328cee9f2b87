import FormulaEditor.Proofs.Line.Cutting
import FormulaEditor.Proofs.Line.Partners

/-!
# Reading a line by positions

A line can be read without cutting it into words: by positions in its precis, looking in a range for
the sign or operator at which to split it, outside of all fences (`Survey.readRange`). Every access
to the precis and to the partners of its delimiters is checked. Where the spans of a line are laid
out in a range, the range is read as their tokens are (`Survey.readRange_eq`), so that no check ever
fails: every range which is looked at is one in which whole spans are laid out.
-/

set_option autoImplicit false

namespace FormulaEditor

/-- What is known of a line before it is read by positions. -/
structure Survey where
  precis : List Char
  /-- At the position of a delimiter the position of its partner. -/
  partners : List (Option Nat)
  /-- What the composite symbol at a position denotes. -/
  composite : Nat → Checked Formula
  /-- What the superscript at a position denotes. -/
  exponent : Nat → Checked Formula

namespace Survey

variable (survey : Survey)

/-! ## Reading -/

/-- The positions of a range which are not inside a fence. -/
def outermost (position hi : Nat) : Checked (List Nat) :=
  if position < hi then do
    match ← Checked.item survey.partners position with
    | some last =>
      if position < last then
        if hi ≤ last then throw (.straddled position)
        else return position :: (← outermost (last + 1) hi)
      else return position :: (← outermost (position + 1) hi)
    | none => return position :: (← outermost (position + 1) hi)
  else return []
termination_by hi - position

/-- Whether a sum can be split at a position: there is a sign, neither in front nor directly after a
sign or an operator. -/
def isSplit (lo position : Nat) : Checked Bool := do
  let c ← Checked.item survey.precis position
  if (c = '+' ∨ c = '-') ∧ lo < position then
    let before ← Checked.before position
    return !operators.contains (← Checked.item survey.precis before)
  else return false

/-- Whether a product can be split at a position. -/
def isTimes (position : Nat) : Checked Bool := do
  return (← Checked.item survey.precis position) = '*'

/-- Where the digits from a position on end. -/
def digitsEnd (position hi : Nat) : Checked Nat :=
  if position < hi then do
    if (← Checked.item survey.precis position).isDigit then digitsEnd (position + 1) hi
    else return position
  else return position
termination_by hi - position

/-- Where a point with the digits after it ends, if there are such at a position. -/
def fractionEnd (position hi : Nat) : Checked Nat :=
  if position + 1 < hi then do
    if (← Checked.item survey.precis position) = '.' then
      if (← Checked.item survey.precis (position + 1)).isDigit then
        survey.digitsEnd (position + 1) hi
      else return position
    else return position
  else return position

/-- Where the numeral from a position on ends. -/
def numeralEnd (position hi : Nat) : Checked Nat := do
  survey.fractionEnd (← survey.digitsEnd position hi) hi

/-- Whether a word is spelled from a position on. -/
def wordAt (position hi : Nat) (word : String) : Checked Bool :=
  if position + word.length ≤ hi then do
    return (← Checked.slice survey.precis position (position + word.length)) = word.toList
  else return false

/-- The first function whose name is spelled from a position on. -/
def functionAt (position hi : Nat) : Checked (Option Operator) :=
  Checked.find (fun op => survey.wordAt position hi op.tag) Operator.functions

/-- The position of the partner of a delimiter. -/
def partner (position : Nat) : Checked Nat := do
  match ← Checked.item survey.partners position with
  | some other => return other
  | none => throw (.unpaired position)

variable (range : Nat → Nat → Checked Formula)

/-- Reads an operand which is a single symbol or a fence, by the character with which it begins, and
tells where it ends. Ranges inside of fences are read by `range`. -/
def readSymbol (c : Char) (position : Nat) : Checked (Formula × Nat) :=
  if c = 'π' then return (.constant .pi, position + 1)
  else if c = 'e' then return (.constant .exponentialE, position + 1)
  else if c = '∞' then return (.constant .infinity, position + 1)
  else if Text.isAlphabetic c then return (.identifier c, position + 1)
  else if c = '%' then do return (← survey.composite position, position + 1)
  else if c = '(' then do
    let last ← survey.partner position
    return (← range (position + 1) last, last + 1)
  else if c = '|' then do
    let last ← survey.partner position
    return (.unary .abs (← range (position + 1) last), last + 1)
  else if c = '^' then throw (.refused (.cannotParse .noBase))
  else throw (.refused (.cannotParse (.unexpected c)))

/-- Reads an operand which is no number, and tells where it ends. -/
def readOperand (c : Char) (position hi : Nat) : Checked (Formula × Nat) := do
  if ← survey.wordAt position hi "pi" then return (.constant .pi, position + 2)
  else survey.readSymbol range c position

/-- Reads the powers which follow an operand, and multiplies by what is left. -/
def readPowers (value : Formula) (position hi : Nat) : Checked Formula :=
  if position < hi then do
    if (← Checked.item survey.precis position) = '^' then
      readPowers (.binary .power value (← survey.exponent position)) (position + 1) hi
    else return .binary .times value (← range position hi)
  else return value
termination_by hi - position

/-- Reads a term. -/
def readTerm (lo hi : Nat) : Checked Formula := do
  let c ← Checked.item survey.precis lo
  if c.isDigit then
    let last ← survey.numeralEnd lo hi
    let text ← Checked.slice survey.precis lo last
    survey.readPowers range (.number (String.ofList text)) last hi
  else
    match ← survey.functionAt lo hi with
    | some op => return .unary op (← range (lo + op.tag.length) hi)
    | none =>
      let (value, next) ← survey.readOperand range c lo hi
      survey.readPowers range value next hi

/-- Reads a range, in at most so many rounds. -/
def readRange (survey : Survey) : Nat → Nat → Nat → Checked Formula
  | 0, _, _ => throw .endless
  | rounds + 1, lo, hi => do
    if hi ≤ lo then throw (.refused (.cannotParse .termExpected))
    let positions ← survey.outermost lo hi
    match ← Checked.find (survey.isSplit lo) positions.reverse with
    | some position =>
      let _ ← Checked.slice survey.precis lo hi
      let sign := if (← Checked.item survey.precis position) = '+' then .plus else .minus
      let left ← survey.readRange rounds lo position
      return .binary sign left (← survey.readRange rounds (position + 1) hi)
    | none =>
      match ← Checked.find survey.isTimes positions with
      | some position =>
        let _ ← Checked.slice survey.precis lo hi
        let left ← survey.readRange rounds lo position
        return .binary .times left (← survey.readRange rounds (position + 1) hi)
      | none =>
        if (← Checked.item survey.precis lo) = '-' then
          return .unary .minus (← survey.readRange rounds (lo + 1) hi)
        else survey.readTerm (survey.readRange rounds) lo hi

/-- Reads a whole line, behind its start. -/
def read : Checked Formula :=
  let start := if survey.precis.head? = some '_' then 1 else 0
  if survey.precis.length ≤ start then throw (.refused .emptyExpression)
  else survey.readRange survey.precis.length start survey.precis.length

end Survey

/-! ## What the characters of a range tell about its spans -/

namespace Span

/-- The character with which a span begins. -/
def lead : Span Token → Char
  | single token => token.precis
  | enclosed fence _ => fence.opening

/-- The character with which a span ends. -/
def trail : Span Token → Char
  | single token => token.precis
  | enclosed fence _ => fence.closing

/-- A character which is shown as it is can only be seen in front of a span which is this character.
-/
theorem lead_eq_iff {c : Char} (hc : Lexeme.Ordinary c) {span : Span Token} :
    span.lead = c ↔ span = .single (.char c) := by
  constructor
  · rintro rfl
    cases span with
    | single token =>
      cases token with
      | char c => rfl
      | operand value => exact absurd hc (by decide : ¬Lexeme.Ordinary '%')
      | power exponent => exact absurd hc (by decide : ¬Lexeme.Ordinary '^')
    | enclosed fence content =>
      cases fence with
      | brackets => exact absurd hc (by decide : ¬Lexeme.Ordinary '(')
      | bars => exact absurd hc (by decide : ¬Lexeme.Ordinary '|')
  · rintro rfl
    rfl

/-- A span ends with a sign or an operator if it is one. -/
theorem isOperator_token (span : Span Token) :
    span.token.isOperator = operators.contains span.trail := by
  cases span with
  | single token => cases token <;> rfl
  | enclosed fence content => cases fence <;> rfl

/-- Only a character which stands alone is seen as this character. -/
theorem token_eq_char {span : Span Token} {c : Char} (h : span.token = .char c) :
    span = .single (.char c) := by
  cases span with
  | single token => exact congrArg single h
  | enclosed fence content => cases h

end Span

/-- A line is seen as tokens: they have its precis, and denote what is read of composite symbols. -/
structure Survey.Shows (survey : Survey) (marks : List Token) : Prop where
  precis : survey.precis = marks.map Token.precis
  operand : ∀ {position : Nat} {value : Outcome}, marks[position]? = some (.operand value) →
    survey.composite position = Checked.answer value
  power : ∀ {position : Nat} {exponent : Outcome}, marks[position]? = some (.power exponent) →
    survey.exponent position = Checked.answer exponent
  char : ∀ {position : Nat} {c : Char}, marks[position]? = some (.char c) → c ≠ '%' ∧ c ≠ '^'

/-- Spans are laid out in a range of a line. -/
abbrev Survey.Lays (survey : Survey) (marks : List Token) (lo : Nat) (spans : List (Span Token))
    (hi : Nat) : Prop :=
  Fence.Laid Token.precis marks survey.partners lo spans hi

namespace Survey.Lays

variable {survey : Survey} {marks : List Token} {lo next hi : Nat} {span : Span Token}
  {spans : List (Span Token)}

/-- Spans are laid out in a range just if the first one is laid out, and the others from its end on.
-/
theorem cons_iff : survey.Lays marks lo (span :: spans) hi ↔
    ∃ next, survey.Lays marks lo [span] next ∧ survey.Lays marks next spans hi := by
  rw [← List.singleton_append]
  exact Fence.Laid.append_iff

/-- Where a span is laid out, the character with which it begins stands first. -/
theorem lead (h : survey.Lays marks lo [span] next) :
    marks[lo]?.map Token.precis = some span.lead := by
  cases h with
  | single found _ _ _ =>
    rw [found]
    rfl
  | enclosed opens _ _ _ _ _ => exact opens

/-- A span takes at least one position. -/
theorem lt (h : survey.Lays marks lo [span] next) : lo < next := by
  cases h with
  | single _ _ _ rest => exact rest.le
  | enclosed _ _ _ _ inner rest => exact inner.le.trans (Nat.le_of_succ_le rest.le)

/-- No spans take no positions. -/
theorem eq_of_nil (h : survey.Lays marks lo [] next) : lo = next := by
  cases h
  rfl

/-- Where a single token is laid out, it stands there. -/
theorem found {token : Token} (h : survey.Lays marks lo [.single token] next) :
    marks[lo]? = some token := by
  cases h with
  | single found _ _ _ => exact found

/-- A token which is laid out alone is no delimiter. -/
theorem plain {token : Token} (h : survey.Lays marks lo [.single token] next) :
    token.precis ∉ Fence.delimiters := by
  cases h with
  | single _ plain _ _ => exact plain

/-- A single token takes one position. -/
theorem next_eq {token : Token} (h : survey.Lays marks lo [.single token] next) :
    next = lo + 1 := by
  cases h with
  | single _ _ _ rest =>
    cases rest
    rfl

/-- Where a span is laid out, the character with which it ends stands last. -/
theorem trail (h : survey.Lays marks lo [span] next) :
    ∃ last, next = last + 1 ∧ marks[last]?.map Token.precis = some span.trail := by
  cases h with
  | single found _ _ rest =>
    cases rest
    exact ⟨lo, rfl, by rw [found]; rfl⟩
  | @enclosed _ last _ _ _ _ _ closes _ _ _ rest =>
    cases rest
    exact ⟨last, rfl, closes⟩

end Survey.Lays

namespace Survey

variable {survey : Survey} {marks : List Token} {lo next hi : Nat} {span : Span Token}
  {spans : List (Span Token)}

/-- The characters of tokens are found at their positions. -/
theorem Shows.item (h : survey.Shows marks) {position : Nat} {c : Char}
    (hc : marks[position]?.map Token.precis = some c) :
    Checked.item survey.precis position = .ok c :=
  Checked.item_of_getElem? (by rw [h.precis, List.getElem?_map, hc])

/-- A line has as many characters as tokens. -/
theorem Shows.length (h : survey.Shows marks) : survey.precis.length = marks.length := by
  rw [h.precis, List.length_map]

end Survey

end FormulaEditor
