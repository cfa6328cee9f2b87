import FormulaEditor.Line.Formula
import FormulaEditor.Proofs.Formula.Line
import FormulaEditor.Proofs.Line.Derivation
import FormulaEditor.Proofs.Line.Grouping
import FormulaEditor.Proofs.Line.Lexing

/-!
# Lines put together

How a line which is put together from others is read. Some tokens are grouped in the same way
wherever a term can begin (`Fence.Groups`), and are cut into the same words in front of whatever
cannot continue a word. A line spells words if both hold for its tokens (`Line.Spells`). Such lines
may be put between brackets or bars, behind signs, and on both sides of an operator, and the words
of the result are known.
-/

set_option autoImplicit false

namespace FormulaEditor

/-! ## Spans put together -/

namespace Fence

variable {α : Type} {key : α → Char}

/-- A grouping with spans added to its innermost open fence. -/
def Grouping.addAll (grouping : Grouping α) (spans : List (Span α)) : Grouping α :=
  { grouping with content := spans.reverse ++ grouping.content }

/-- Items are grouped into spans wherever a term can begin. -/
def Groups (key : α → Char) (items : List α) (spans : List (Span α)) : Prop :=
  ∀ position grouping rest, endsTerm key grouping.content = false →
    groupFrom key position grouping (items ++ rest) =
      groupFrom key (position + items.length) (grouping.addAll spans) rest

/-- Whether a term can end behind spans is decided by the last of them. -/
theorem endsTerm_append {spans : List (Span α)} (h : endsTerm key spans = true)
    (before : List (Span α)) : endsTerm key (spans ++ before) = true := by
  cases spans with
  | nil => cases h
  | cons span spans => cases span <;> exact h

/-- An item which is no delimiter is added to the innermost open fence. -/
theorem groupFrom_plain {item : α} (h : key item ∉ ['(', ')', '|']) (position : Nat)
    (grouping : Grouping α) (rest : List α) :
    groupFrom key position grouping (item :: rest) =
      groupFrom key (position + 1) (grouping.add item) rest := by
  simp only [List.mem_cons, List.not_mem_nil, or_false, not_or] at h
  obtain ⟨hopening, hclosing, hbar⟩ := h
  rw [groupFrom, step, if_neg hopening, if_neg hclosing, if_neg hbar]
  rfl

/-- Items between brackets make a fence if they are grouped directly behind the opening one. -/
theorem groupFrom_enclosed {items rest : List α} {spans : List (Span α)} {left right : α}
    (hleft : key left = '(') (hright : key right = ')') {position : Nat} {grouping : Grouping α}
    (h : groupFrom key (position + 1) (grouping.openFence .brackets position)
        (items ++ right :: rest) =
      groupFrom key (position + 1 + items.length)
        ((grouping.openFence .brackets position).addAll spans) (right :: rest)) :
    groupFrom key position grouping (left :: items ++ right :: rest) =
      groupFrom key (position + items.length + 2)
        (grouping.addAll [.enclosed .brackets spans]) rest := by
  rw [List.cons_append, groupFrom, step, if_pos hleft]
  refine h.trans ?_
  rw [groupFrom, step, hright, if_neg (by decide), if_pos rfl]
  have hclose : ((grouping.openFence .brackets position).addAll spans).close? .brackets =
      some (grouping.addAll [.enclosed .brackets spans]) := by
    simp [Grouping.close?, Grouping.openFence, Grouping.addAll]
  rw [hclose]
  show groupFrom key (position + 1 + items.length + 1) _ rest = _
  rw [show position + 1 + items.length + 1 = position + items.length + 2 by omega]

/-- Items which are grouped between brackets make a fence, wherever they stand. -/
theorem groupFrom_brackets {items : List α} {spans : List (Span α)} (h : Groups key items spans)
    {left right : α} (hleft : key left = '(') (hright : key right = ')') (position : Nat)
    (grouping : Grouping α) (rest : List α) :
    groupFrom key position grouping (left :: items ++ right :: rest) =
      groupFrom key (position + items.length + 2)
        (grouping.addAll [.enclosed .brackets spans]) rest :=
  groupFrom_enclosed hleft hright (h _ _ _ rfl)

namespace Groups

variable {items others : List α} {spans more : List (Span α)}

/-- Nothing is grouped into no spans. -/
theorem nil : Groups key [] [] :=
  fun _ _ _ _ => rfl

/-- One more item which is no delimiter is one more span. -/
theorem concat (h : Groups key items spans) {item : α} (hitem : key item ∉ ['(', ')', '|']) :
    Groups key (items ++ [item]) (spans ++ [.single item]) := by
  intro position grouping rest hends
  rw [List.append_assoc, h position grouping _ hends, List.singleton_append, groupFrom_plain hitem,
    List.length_append]
  congr 1
  simp [Grouping.add, Grouping.addAll]

/-- More items which are no delimiters are as many more spans. -/
theorem append_plain (h : Groups key items spans) {plain : List α}
    (hplain : ∀ item ∈ plain, key item ∉ ['(', ')', '|']) :
    Groups key (items ++ plain) (spans ++ plain.map .single) := by
  induction plain generalizing items spans with
  | nil => simpa using h
  | cons item plain ih =>
    have hnext := ih (h.concat (hplain item List.mem_cons_self))
      fun other hother => hplain other (List.mem_cons_of_mem _ hother)
    simpa using hnext

/-- A sign or an operator may stand between two sequences. -/
theorem append_sign (h : Groups key items spans) {item : α} (hitem : leadsOn (key item) = true)
    (hmore : Groups key others more) :
    Groups key (items ++ item :: others) (spans ++ .single item :: more) := by
  have hplain : key item ∉ ['(', ')', '|'] := by
    intro hmem
    simp only [List.mem_cons, List.not_mem_nil, or_false] at hmem
    obtain hkey | hkey | hkey := hmem <;> rw [hkey] at hitem <;> cases hitem
  intro position grouping rest hends
  have hends' : endsTerm key ((grouping.addAll spans).add item).content = false := by
    show (!leadsOn (key item)) = false
    rw [hitem]
    rfl
  rw [List.append_assoc, h position grouping _ hends, List.cons_append, groupFrom_plain hplain,
    hmore _ _ _ hends', List.length_append, List.length_cons]
  congr 1
  · omega
  · simp [Grouping.add, Grouping.addAll]

/-- A sequence between brackets behind another one is one more span. -/
theorem append_brackets (h : Groups key items spans) (hmore : Groups key others more)
    {left right : α} (hleft : key left = '(') (hright : key right = ')') :
    Groups key (items ++ (left :: others ++ [right])) (spans ++ [.enclosed .brackets more]) := by
  intro position grouping rest hends
  rw [List.append_assoc, h position grouping _ hends, List.append_assoc, List.singleton_append,
    groupFrom_brackets hmore hleft hright]
  congr 1
  · simp only [List.length_append, List.length_cons, List.length_nil]
    omega
  · simp [Grouping.addAll]

/-- Where a term can begin, items after which a term can end make a fence between bars. -/
theorem bars (h : Groups key items spans) (hends : endsTerm key spans.reverse = true)
    {left right : α} (hleft : key left = '|') (hright : key right = '|') :
    Groups key (left :: items ++ [right]) [.enclosed .bars spans] := by
  intro position grouping rest hbegin
  have hopen : step key position grouping left = .ok (grouping.openFence .bars position) := by
    rw [step, hleft, if_neg (by decide), if_neg (by decide), if_pos rfl, hbegin]
    cases grouping.close? .bars <;> rfl
  have hclose : ((grouping.openFence .bars position).addAll spans).close? .bars =
      some (grouping.addAll [.enclosed .bars spans]) := by
    simp [Grouping.close?, Grouping.openFence, Grouping.addAll]
  -- what was open before does not count: the fence which is closed is the one just opened
  have hcontent :
      endsTerm key ((grouping.openFence .bars position).addAll spans).content = true := by
    simpa [Grouping.openFence, Grouping.addAll] using hends
  rw [List.cons_append, List.cons_append, groupFrom, hopen, List.append_assoc]
  refine (h (position + 1) (grouping.openFence .bars position) _ rfl).trans ?_
  rw [List.singleton_append, groupFrom, step, hright, if_neg (by decide), if_neg (by decide),
    if_pos rfl, hclose, hcontent]
  show groupFrom key (position + 1 + items.length + 1) _ rest = _
  congr 1
  simp only [List.length_append, List.length_cons, List.length_nil]
  omega

/-- A sequence on its own is grouped as it is wherever a term can begin. -/
theorem group_eq (h : Groups key items spans) (position : Nat) :
    group key position items = .ok spans := by
  have hall := h position .empty [] rfl
  rw [List.append_nil] at hall
  rw [group, hall, groupFrom]
  simp [Grouping.addAll, Grouping.empty]

end Groups

end Fence

/-! ## Words put together -/

/-- The tokens of spans one after the other are those of all of them. -/
theorem Span.tokens_append (left right : List (Span Token)) :
    Span.tokens (left ++ right) = Span.tokens left ++ Span.tokens right := by
  induction left with
  | nil => rfl
  | cons span left ih => rw [List.cons_append, tokens, tokens, ih, List.cons_append]

/-- Tokens which stand alone are seen as they are. -/
theorem Span.tokens_single (tokens : List Token) :
    Span.tokens (tokens.map .single) = tokens := by
  induction tokens with
  | nil => rfl
  | cons token tokens ih =>
    rw [List.map_cons, Span.tokens, ih]
    rfl

namespace Lexeme

/-- Whether no word before a sequence can be continued by it: it begins with no digit, point or
letter. -/
def Stops : List Token → Prop
  | .char c :: _ => c ∈ ['+', '-', '*']
  | _ => True

/-- In front of what cannot continue it, a numeral is a number. -/
theorem words_numeral {text : List Char} {rest : List Token}
    (h : Literal.isUnsigned text = true) (hstops : Stops rest) :
    words (text.map .char ++ rest) =
      .operand (.ok (.number (String.ofList text))) :: words rest := by
  refine words_of_begins (.number h fun other after hother heq => ?_)
  obtain ⟨more, htext, -⟩ | ⟨more, hmore, hrest⟩ := List.append_eq_append_iff.mp heq
  · have hlength := congrArg List.length htext
    simp only [List.length_append, List.length_map] at hlength
    omega
  · cases more with
    | nil =>
      have hlength := congrArg List.length hmore
      simp only [List.length_append, List.length_map, List.length_nil] at hlength
      omega
    | cons token more =>
      -- the longer numeral would go on with what cannot continue it
      have htoken : token ∈ other.map Token.char :=
        hmore ▸ List.mem_append_right _ List.mem_cons_self
      obtain ⟨c, hc, rfl⟩ := List.mem_map.mp htoken
      rw [hrest] at hstops
      simp only [List.cons_append, Stops, List.mem_cons, List.not_mem_nil, or_false] at hstops
      obtain hdigit | rfl := Literal.isDigit_or_point hother hc
      · obtain rfl | rfl | rfl := hstops <;> cases hdigit
      · obtain hstops | hstops | hstops := hstops <;> cases hstops

/-- In front of what cannot continue it, a letter which stands for no constant is a variable. -/
theorem words_letter {c : Char} {rest : List Token} (h : Text.isAlphabetic c = true)
    (unnamed : ∀ name : Constant, c ≠ name.letter) (hstops : Stops rest) :
    words (.char c :: rest) = .operand (.ok (.identifier c)) :: words rest := by
  refine words_of_begins (.letter h unnamed fun word hword after heq => ?_)
  -- a spelled word would go on with a letter, and what is behind does not begin with one
  have hletters : ∀ word ∈ spelled, ∃ first second more, word = first :: second :: more ∧
      second ∉ ['+', '-', '*'] := by
    intro word hword
    simp only [spelled, Operator.functions, List.map_cons, List.map_nil, List.mem_cons,
      List.not_mem_nil, or_false] at hword
    obtain rfl | rfl | rfl | rfl | rfl := hword <;> exact ⟨_, _, _, rfl, by decide⟩
  obtain ⟨first, second, more, rfl, hsecond⟩ := hletters word hword
  rw [← (List.cons.inj heq).2] at hstops
  exact hsecond hstops

end Lexeme

/-- A line spells words if it is grouped alike wherever a term can begin, a term can end behind it,
and it is cut into these words in front of whatever cannot continue it. -/
def Line.Spells (line : Line) (words : List Lexeme) : Prop :=
  ∃ spans, Fence.Groups Token.precis (Glyph.tokens line) spans ∧
    Fence.endsTerm Token.precis spans.reverse = true ∧
    ∀ rest, Lexeme.Stops rest →
      Lexeme.words (Span.tokens spans ++ rest) = words ++ Lexeme.words rest

/-- The tokens of lines one after the other are those of both. -/
theorem Glyph.tokens_append (left right : Line) :
    Glyph.tokens (left ++ right) = Glyph.tokens left ++ Glyph.tokens right := by
  induction left with
  | nil => rfl
  | cons glyph left ih => rw [List.cons_append, tokens, tokens, ih, List.cons_append]

/-- Ordinary characters are tokens as they are. -/
theorem Glyph.tokens_atoms {text : List Char} (h : ∀ c ∈ text, Lexeme.Ordinary c) :
    Glyph.tokens (text.map .atom) = text.map .char := by
  induction text with
  | nil => rfl
  | cons c text ih =>
    have hc := h c List.mem_cons_self
    have hpercent : c ≠ '%' := by
      rintro rfl
      exact hc (by decide)
    have hcaret : c ≠ '^' := by
      rintro rfl
      exact hc (by decide)
    rw [List.map_cons, tokens, token, Token.ofChar, if_neg hpercent, if_neg hcaret,
      ih fun d hd => h d (List.mem_cons_of_mem _ hd), List.map_cons]

namespace Line.Spells

variable {line left right : Line} {words more : List Lexeme} {value : Formula}

/-- Nothing else than the words has to be read. -/
theorem sum_eq {spans : List (Span Token)} (hwords : ∀ rest, Lexeme.Stops rest →
    Lexeme.words (Span.tokens spans ++ rest) = words ++ Lexeme.words rest) :
    Token.sum (Span.tokens spans) = Lexeme.sum words := by
  have hall := hwords [] trivial
  rw [List.append_nil, show Lexeme.words [] = [] from rfl, List.append_nil] at hall
  rw [Token.sum, hall]

/-- A line on its own is read as the words which it spells. -/
theorem formula_eq (h : Spells line words) : Line.formula line = Lexeme.sum words := by
  obtain ⟨spans, hgroups, hends, hwords⟩ := h
  cases spans with
  | nil => cases hends
  | cons span spans =>
    rw [Line.formula, Token.formula, hgroups.group_eq]
    exact sum_eq hwords

/-- A line inside a glyph is read as it is on its own. -/
theorem slot_eq (h : Spells line words) (hvalue : Lexeme.sum words = .ok value) :
    Token.slot (Glyph.tokens line) = .ok value := by
  have hformula : Token.formula (Glyph.tokens line) = .ok value := h.formula_eq.trans hvalue
  rw [Token.slot, hformula]

/-- Ordinary characters are grouped alike wherever a term can begin. -/
theorem groups_ordinary {chars : List Char} (h : ∀ c ∈ chars, Lexeme.Ordinary c) :
    Fence.Groups Token.precis (chars.map .char) ((chars.map Token.char).map .single) := by
  refine Fence.Groups.nil.append_plain fun token htoken => ?_
  obtain ⟨c, hc, rfl⟩ := List.mem_map.mp htoken
  have hothers : ['(', ')', '|'] ⊆ ['%', '^', '(', ')', '|', '_'] := by decide
  exact fun hmem => h c hc (hothers hmem)

/-- Characters which are read as one word spell it. -/
theorem text {chars : List Char} {word : Lexeme} (hne : chars ≠ [])
    (hordinary : ∀ c ∈ chars, Lexeme.Ordinary c) (hends : ∀ c ∈ chars, Fence.leadsOn c = false)
    (hwords : ∀ rest, Lexeme.Stops rest →
      Lexeme.words (chars.map .char ++ rest) = word :: Lexeme.words rest) :
    Spells (chars.map .atom) [word] := by
  refine ⟨(chars.map Token.char).map .single, ?_, ?_, ?_⟩
  · rw [Glyph.tokens_atoms hordinary]
    exact groups_ordinary hordinary
  · obtain rfl | ⟨front, last, rfl⟩ := List.eq_nil_or_concat chars
    · exact absurd rfl hne
    · have hlast := hends last (by simp)
      simp [Fence.endsTerm, Token.precis, hlast]
  · intro rest hrest
    rw [Span.tokens_single, hwords rest hrest]
    rfl

/-- An unsigned literal spells a number. -/
theorem number {chars : List Char} (h : Literal.isUnsigned chars = true) :
    Spells (chars.map .atom) [.operand (.ok (.number (String.ofList chars)))] := by
  refine text ?_ (Lexeme.ordinary_of_isUnsigned h) (fun c hc => ?_)
    (fun rest hrest => Lexeme.words_numeral h hrest)
  · obtain ⟨c, more, rfl, -⟩ := Literal.exists_digit_of_isUnsigned h
    exact List.cons_ne_nil c more
  · rw [Bool.eq_false_iff]
    intro hleads
    simp only [Fence.leadsOn, Bool.or_eq_true, decide_eq_true_eq] at hleads
    obtain hdigit | rfl := Literal.isDigit_or_point h hc
    · obtain ((rfl | rfl) | rfl) | rfl := hleads <;> cases hdigit
    · obtain ((hc | hc) | hc) | hc := hleads <;> cases hc

/-- The letter of a constant spells the constant. -/
theorem constant (name : Constant) :
    Spells [.atom name.letter] [.operand (.ok (.constant name))] := by
  refine @text [name.letter] _ (List.cons_ne_nil _ _) ?_ ?_ fun rest _ =>
    Lexeme.words_of_begins (.constant name)
  · exact List.forall_mem_singleton.mpr (by cases name <;> decide)
  · exact List.forall_mem_singleton.mpr (by cases name <;> decide)

/-- An alphabetic character which is no letter of a constant spells an identifier. -/
theorem letter {c : Char} (h : Text.isAlphabetic c = true)
    (unnamed : ∀ name : Constant, c ≠ name.letter) :
    Spells [.atom c] [.operand (.ok (.identifier c))] := by
  have hleads : Fence.leadsOn c = false := by
    rw [Bool.eq_false_iff]
    intro hleads
    simp only [Fence.leadsOn, Bool.or_eq_true, decide_eq_true_eq] at hleads
    obtain ((rfl | rfl) | rfl) | rfl := hleads
    all_goals exact Text.ne_of_isAlphabetic h (by decide) rfl
  refine @text [c] _ (List.cons_ne_nil _ _) ?_ ?_ fun rest hrest =>
    Lexeme.words_letter h unnamed hrest
  · exact List.forall_mem_singleton.mpr (Lexeme.ordinary_of_isAlphabetic h)
  · exact List.forall_mem_singleton.mpr hleads

/-- A glyph which is an operand on its own spells it. -/
theorem operand {glyph : Glyph} (h : glyph.token = .operand (.ok value)) :
    Spells [glyph] [.operand (.ok value)] := by
  refine ⟨[.single (.operand (.ok value))], ?_, rfl, fun rest _ => Lexeme.words_cons _ _⟩
  show Fence.Groups Token.precis [glyph.token] _
  rw [h]
  refine Fence.Groups.nil.concat ?_
  show '%' ∉ _
  decide

/-- A line with an exponent behind it spells one more exponent. -/
theorem superscript (h : Spells line words) {exponent : Line}
    (hvalue : Token.slot (Glyph.tokens exponent) = .ok value) :
    Spells (line ++ [.superscript exponent]) (words ++ [.power (.ok value)]) := by
  obtain ⟨spans, hgroups, hends, hwords⟩ := h
  have htoken : Glyph.tokens [.superscript exponent] = [.power (.ok value)] := by
    rw [Glyph.tokens, Glyph.token, hvalue]
    rfl
  refine ⟨spans ++ [.single (.power (.ok value))], ?_, ?_, fun rest hrest => ?_⟩
  · rw [Glyph.tokens_append, htoken]
    refine hgroups.concat ?_
    show '^' ∉ _
    decide
  · rw [List.reverse_append]
    rfl
  · rw [Span.tokens_append, List.append_assoc, List.append_assoc]
    have hstops : Lexeme.Stops (.power (.ok value) :: rest) := trivial
    exact (hwords _ hstops).trans (congrArg (words ++ ·) (Lexeme.words_cons _ _))

/-- A line between brackets spells its value. -/
theorem bracketed (h : Spells line words) (hvalue : Lexeme.sum words = .ok value) :
    Spells (Formula.bracketed line) [.operand (.ok value)] := by
  obtain ⟨spans, hgroups, -, hwords⟩ := h
  have hsum : Token.sum (Span.tokens spans) = .ok value := (sum_eq hwords).trans hvalue
  refine ⟨[.enclosed .brackets spans], ?_, rfl, fun rest _ => ?_⟩
  · rw [Formula.bracketed, Glyph.tokens_append, Glyph.tokens]
    exact Fence.Groups.nil.append_brackets hgroups rfl rfl
  · show Lexeme.words (.operand (Token.sum (Span.tokens spans)) :: rest) = _
    rw [hsum]
    exact Lexeme.words_cons _ _

/-- A line between bars spells the absolute value of its value. -/
theorem bars (h : Spells line words) (hvalue : Lexeme.sum words = .ok value) :
    Spells (.bar :: line ++ [.bar]) [.operand (.ok (.unary .abs value))] := by
  obtain ⟨spans, hgroups, hends, hwords⟩ := h
  have hsum : Token.sum (Span.tokens spans) = .ok value := (sum_eq hwords).trans hvalue
  refine ⟨[.enclosed .bars spans], ?_, rfl, fun rest _ => ?_⟩
  · rw [Glyph.tokens_append, Glyph.tokens]
    exact hgroups.bars hends rfl rfl
  · show Lexeme.words (.operand ((Token.sum (Span.tokens spans)).map (.unary .abs)) :: rest) = _
    rw [hsum]
    exact Lexeme.words_cons _ _

/-- The name of a function and a line between brackets spell the function and its operand. -/
theorem function {op : Operator} (hop : op ∈ Operator.functions) (h : Spells line words)
    (hvalue : Lexeme.sum words = .ok value) :
    Spells (op.tag.toList.map .atom ++ Formula.bracketed line)
      [.function op, .operand (.ok value)] := by
  obtain ⟨spans, hgroups, -, hwords⟩ := h
  have hsum : Token.sum (Span.tokens spans) = .ok value := (sum_eq hwords).trans hvalue
  have hordinary := Lexeme.ordinary_spelled _ (Lexeme.tag_mem_spelled hop)
  refine ⟨(op.tag.toList.map Token.char).map .single ++ [.enclosed .brackets spans], ?_, ?_,
    fun rest _ => ?_⟩
  · rw [Glyph.tokens_append, Glyph.tokens_atoms hordinary, Formula.bracketed, Glyph.tokens_append,
      Glyph.tokens]
    refine Fence.Groups.append_brackets ?_ hgroups rfl rfl
    exact groups_ordinary hordinary
  · rw [List.reverse_append]
    rfl
  · rw [Span.tokens_append, Span.tokens_single, List.append_assoc,
      Lexeme.words_of_begins (.function hop)]
    show .function op :: Lexeme.words (.operand (Token.sum (Span.tokens spans)) :: rest) = _
    rw [hsum, Lexeme.words_cons]
    rfl

/-- A sign is cut off as a word of its own. -/
theorem words_sign {c : Char} (hc : c ∈ ['+', '-', '*']) (rest : List Token) :
    Lexeme.words (.char c :: rest) = Lexeme.ofChar c :: Lexeme.words rest := by
  simp only [List.mem_cons, List.not_mem_nil, or_false] at hc
  obtain rfl | rfl | rfl := hc
  · exact Lexeme.words_of_begins .plus
  · exact Lexeme.words_of_begins .minus
  · exact Lexeme.words_of_begins .times

/-- A sign or an operator between two lines is a word between theirs. -/
theorem append_sign {c : Char} (hc : c ∈ ['+', '-', '*']) (hleft : Spells left words)
    (hright : Spells right more) :
    Spells (left ++ .atom c :: right) (words ++ Lexeme.ofChar c :: more) := by
  obtain ⟨spans, hgroups, -, hwords⟩ := hleft
  obtain ⟨others, hmore, hends, hothers⟩ := hright
  have hchar : Token.ofChar c = .char c ∧ Fence.leadsOn c = true := by
    simp only [List.mem_cons, List.not_mem_nil, or_false] at hc
    obtain rfl | rfl | rfl := hc <;> exact ⟨rfl, rfl⟩
  refine ⟨spans ++ .single (.char c) :: others, ?_, ?_, fun rest hrest => ?_⟩
  · rw [Glyph.tokens_append, Glyph.tokens, Glyph.token, hchar.1]
    exact hgroups.append_sign hchar.2 hmore
  · rw [List.reverse_append, List.reverse_cons, List.append_assoc]
    exact Fence.endsTerm_append hends _
  · rw [Span.tokens_append, List.append_assoc]
    have hstops : Lexeme.Stops (.char c :: (Span.tokens others ++ rest)) := hc
    refine (hwords _ hstops).trans ?_
    show words ++ Lexeme.words (.char c :: (Span.tokens others ++ rest)) = _
    rw [words_sign hc, hothers rest hrest, List.append_assoc, List.cons_append]

/-- A minus sign in front of a line spells one more word in front. -/
theorem minus (h : Spells line words) : Spells (.atom '-' :: line) (.minus :: words) := by
  obtain ⟨spans, hgroups, hends, hwords⟩ := h
  refine ⟨.single (.char '-') :: spans, ?_, ?_, fun rest hrest => ?_⟩
  · exact Fence.Groups.nil.append_sign rfl hgroups
  · rw [List.reverse_cons]
    exact Fence.endsTerm_append hends _
  · show Lexeme.words (.char '-' :: (Span.tokens spans ++ rest)) = _
    rw [words_sign (by decide), hwords rest hrest]
    rfl

end Line.Spells

end FormulaEditor
