import FormulaEditor.Proofs.Line.Derivation
import FormulaEditor.Proofs.Line.Spelling

/-!
# Cutting tokens

Words are cut from tokens before operators are looked for among the words, but the operators can be
found among the tokens just as well: no word but an operator covers one (`Lexeme.words_cases`). So a
sequence of tokens is the sum of what is before and behind its last sign which adds or subtracts
(`Token.sum_append_sign`), or else the product of what is before and behind its first operator
(`Token.sum_append_times`), or a minus sign before a sequence (`Token.sum_minus`), or a term
(`Token.sum_term`).
-/

set_option autoImplicit false

namespace FormulaEditor

/-- The characters of signs and operators. -/
def operators : List Char :=
  ['+', '-', '*']

namespace Token

/-- Whether a token is a sign or an operator. -/
def isOperator : Token → Bool
  | char c => operators.contains c
  | operand _ | power _ => false

/-- Whether the next sign belongs to its operand, after some tokens. -/
def unaryAfter (unary : Bool) (tokens : List Token) : Bool :=
  tokens.foldl (fun _ token => token.isOperator) unary

/-- No sign of a sequence adds or subtracts, if `unary` tells whether the first one may belong to its
operand. -/
def Uncut (unary : Bool) : List Token → Prop
  | [] => True
  | token :: tokens =>
    ((∃ c ∈ ['+', '-'], token = .char c) → unary = true) ∧ Uncut token.isOperator tokens

/-- Behind tokens which are no operators a sign adds or subtracts. -/
theorem unaryAfter_of_not_isOperator {unary : Bool} {tokens : List Token} (hne : tokens ≠ [])
    (h : ∀ token ∈ tokens, token.isOperator = false) : unaryAfter unary tokens = false := by
  induction tokens generalizing unary with
  | nil => exact absurd rfl hne
  | cons token tokens ih =>
    obtain ⟨htoken, htokens⟩ := List.forall_mem_cons.mp h
    rw [unaryAfter, List.foldl_cons, htoken]
    cases tokens with
    | nil => rfl
    | cons next tokens => exact ih (List.cons_ne_nil _ _) htokens

/-- Where no sign may belong to its operand, none may be in front. -/
theorem Uncut.mono {unary : Bool} {tokens : List Token} (h : Uncut unary tokens) :
    Uncut true tokens := by
  cases tokens with
  | nil => trivial
  | cons token tokens => exact ⟨fun _ => rfl, h.2⟩

/-- Without signs there is none which adds or subtracts. -/
theorem uncut_of_not_isOperator {tokens : List Token}
    (h : ∀ token ∈ tokens, token.isOperator = false) : Uncut false tokens := by
  induction tokens with
  | nil => trivial
  | cons token tokens ih =>
    obtain ⟨htoken, htokens⟩ := List.forall_mem_cons.mp h
    refine ⟨?_, htoken ▸ ih htokens⟩
    rintro ⟨c, hc, rfl⟩
    simp only [List.mem_cons, List.not_mem_nil, or_false] at hc
    obtain rfl | rfl := hc <;> cases htoken

/-- No sign adds or subtracts in a sequence just if none does in its two parts, one after the other.
-/
theorem uncut_append {unary : Bool} {left right : List Token} :
    Uncut unary (left ++ right) ↔ Uncut unary left ∧ Uncut (unaryAfter unary left) right := by
  induction left generalizing unary with
  | nil => exact (and_iff_right trivial).symm
  | cons token left ih =>
    rw [List.cons_append, Uncut, Uncut, ih, and_assoc]
    rfl

end Token

namespace Lexeme

variable {right : List Token}

/-! ## Words in front of what cannot continue them -/

/-- What cannot continue a word adds no digits to those in front. -/
theorem digits_append_stops (hstops : Stops right) (tokens : List Token) :
    digits (tokens ++ right) = digits tokens := by
  induction tokens with
  | nil =>
    cases right with
    | nil => rfl
    | cons token right =>
      cases token with
      | operand value => rfl
      | power exponent => rfl
      | char c =>
        have hstops : c ∈ ['+', '-', '*'] := hstops
        simp only [List.mem_cons, List.not_mem_nil, or_false] at hstops
        obtain rfl | rfl | rfl := hstops <;> rfl
  | cons token tokens ih =>
    rw [List.cons_append, digits, digits, ih]

/-- What cannot continue a word adds no fraction to the one in front. -/
theorem fraction_append_stops (hstops : Stops right) (tokens : List Token) :
    fraction (tokens ++ right) = fraction tokens := by
  cases tokens with
  | nil =>
    obtain hnone | ⟨rest, rfl, -⟩ := fraction_cases right
    · exact hnone
    · have hpoint : '.' ∈ ['+', '-', '*'] := hstops
      exact absurd hpoint (by decide)
  | cons token tokens =>
    have hdigits := digits_append_stops hstops tokens
    rw [List.cons_append]
    by_cases hpoint : token = .char '.'
    · rw [hpoint, fraction, fraction, hdigits]
    · obtain hnone | ⟨rest, hrest, -⟩ := fraction_cases (token :: (tokens ++ right))
      · obtain hnone' | ⟨rest, hrest, -⟩ := fraction_cases (token :: tokens)
        · rw [hnone, hnone']
        · exact absurd (List.cons.inj hrest).1 hpoint
      · exact absurd (List.cons.inj hrest).1 hpoint

/-- What cannot continue a word leaves the numeral in front as it is. -/
theorem numeral_append_stops (hstops : Stops right) (tokens : List Token) :
    numeral (tokens ++ right) = numeral tokens := by
  have hle : (digits tokens).length ≤ tokens.length := by
    have hlength := congrArg List.length (eq_digits_append tokens).2
    rw [List.length_append, List.length_map] at hlength
    omega
  rw [numeral, numeral, digits_append_stops hstops, List.drop_append_of_le_length hle,
    fraction_append_stops hstops]

/-- The letters of words which are spelled out are no operators. -/
theorem not_operator_of_spelled :
    ∀ word ∈ spelled, ∀ c ∈ word, c ∉ operators := by
  intro word hword c hc
  have hall : ∀ word ∈ spelled, word.all (fun c => !operators.contains c) = true := by decide
  have hnot := List.all_eq_true.mp (hall word hword) c hc
  simpa using hnot

/-- A character which begins no word begins none in front of what cannot continue it. -/
theorem alone_append_stops {c : Char} {tokens : List Token} (hstops : Stops right)
    (alone : ∀ word ∈ spelled, ∀ after, word.map .char ++ after ≠ .char c :: tokens) :
    ∀ word ∈ spelled, ∀ after, word.map .char ++ after ≠ .char c :: (tokens ++ right) := by
  intro word hword after heq
  rw [← List.cons_append] at heq
  obtain ⟨more, hfront, -⟩ | ⟨more, hword', hright⟩ := List.append_eq_append_iff.mp heq
  · exact alone word hword more hfront.symm
  · cases more with
    | nil => exact alone word hword [] (by rw [List.append_nil] at hword' ⊢; exact hword')
    | cons token more =>
      -- the word would go on with an operator
      have htoken : token ∈ word.map Token.char :=
        hword' ▸ List.mem_append_right _ List.mem_cons_self
      obtain ⟨d, hd, rfl⟩ := List.mem_map.mp htoken
      rw [hright] at hstops
      exact not_operator_of_spelled word hword d hd hstops

/-- Only signs and operators stand for themselves. -/
theorem isOperator_ofChar {c : Char} (h : c ∉ operators) : (ofChar c).isOperator = false := by
  simp only [operators, List.mem_cons, List.not_mem_nil, or_false, not_or] at h
  rw [ofChar, if_neg h.1, if_neg h.2.1, if_neg h.2.2]
  repeat' split
  all_goals rfl

/-- A word which is no operator covers tokens none of which is one, in front of others and whatever
cannot continue these. -/
structure Covers (word : Lexeme) (front rest : List Token) : Prop where
  ne_nil : front ≠ []
  tokens_plain : ∀ token ∈ front, token.isOperator = false
  word_plain : word.isOperator = false
  words_eq : ∀ right, Stops right →
    words (front ++ (rest ++ right)) = word :: words (rest ++ right)

/-- A word which stands for a single token covers it. -/
theorem covers_single {word : Lexeme} {token : Token} {rest : List Token}
    (htoken : token.isOperator = false) (hword : word.isOperator = false)
    (hwords : ∀ right, Stops right →
      words (token :: (rest ++ right)) = word :: words (rest ++ right)) :
    Covers word [token] rest where
  ne_nil := List.cons_ne_nil _ _
  tokens_plain := List.forall_mem_singleton.mpr htoken
  word_plain := hword
  words_eq := hwords

/-- A number covers the digits of the longest numeral in front. -/
theorem covers_number {tokens : List Token} (h : digits tokens ≠ []) :
    ∃ rest, tokens = (numeral tokens).map .char ++ rest ∧
      Covers (.operand (.ok (.number (String.ofList (numeral tokens)))))
        ((numeral tokens).map .char) rest := by
  obtain ⟨hnumeral, rest, hrest⟩ := isUnsigned_numeral h
  refine ⟨rest, hrest, ?_, ?_, rfl, fun right hright => ?_⟩
  · obtain ⟨c, text, htext, -⟩ := Literal.exists_digit_of_isUnsigned hnumeral
    rw [htext]
    exact List.cons_ne_nil _ _
  · intro token htoken
    obtain ⟨c, hc, rfl⟩ := List.mem_map.mp htoken
    obtain hdigit | rfl := Literal.isDigit_or_point hnumeral hc
    · rw [Token.isOperator, Bool.eq_false_iff, ne_eq, List.contains_iff_mem]
      intro hmem
      simp only [operators, List.mem_cons, List.not_mem_nil, or_false] at hmem
      obtain rfl | rfl | rfl := hmem <;> cases hdigit
    · rfl
  · have hdigits : digits (tokens ++ right) ≠ [] := by rwa [digits_append_stops hright]
    have hwords := words_of_digits hdigits
    rw [numeral_append_stops hright] at hwords
    rw [← List.append_assoc, ← hrest, hwords]
    congr 2
    rw [hrest, List.append_assoc, ← hrest, List.drop_left' (List.length_map ..)]

/-- A word which is spelled out covers its letters. -/
theorem covers_spelled {letters : List Char} (h : letters ∈ spelled) (rest : List Token) :
    ∃ word, Covers word (letters.map .char) rest := by
  have hne : letters.map Token.char ≠ [] := by
    rintro hnil
    rw [List.map_eq_nil_iff.mp hnil] at h
    revert h
    decide
  have htokens : ∀ token ∈ letters.map Token.char, token.isOperator = false := by
    intro token htoken
    obtain ⟨c, hc, rfl⟩ := List.mem_map.mp htoken
    simpa [Token.isOperator] using not_operator_of_spelled letters h c hc
  obtain rfl | hfunction := List.mem_cons.mp h
  · exact ⟨_, hne, htokens, rfl, fun right _ => words_of_pi (rest ++ right)⟩
  · obtain ⟨op, hop, rfl⟩ := List.mem_map.mp hfunction
    exact ⟨.function op, hne, htokens, rfl,
      fun right _ => words_of_function hop (rest ++ right)⟩

/-- In front of a sequence there is an operator, which is a word of its own, or a word which covers
no operator. -/
theorem words_cases (token : Token) (tokens : List Token) :
    (∃ c ∈ operators, token = .char c ∧ words (token :: tokens) = ofChar c :: words tokens) ∨
      ∃ word front rest, token :: tokens = front ++ rest ∧ Covers word front rest := by
  cases token with
  | operand value =>
    exact .inr ⟨.operand value, _, tokens, rfl, covers_single rfl rfl fun _ _ => words_cons _ _⟩
  | power exponent =>
    exact .inr ⟨.power exponent, _, tokens, rfl, covers_single rfl rfl fun _ _ => words_cons _ _⟩
  | char c =>
    by_cases hoperator : c ∈ operators
    · exact .inl ⟨c, hoperator, rfl, Line.Spells.words_sign hoperator tokens⟩
    right
    by_cases hdigit : c.isDigit = true
    · have hdigits : digits (.char c :: tokens) ≠ [] := by
        rw [digits, Token.digit?, if_pos hdigit]
        exact List.cons_ne_nil _ _
      obtain ⟨rest, hrest, hcovers⟩ := covers_number hdigits
      exact ⟨_, _, rest, hrest, hcovers⟩
    rw [Bool.not_eq_true] at hdigit
    by_cases hword : ∃ word ∈ spelled, ∃ after, word.map Token.char ++ after = .char c :: tokens
    · obtain ⟨letters, hletters, rest, hrest⟩ := hword
      obtain ⟨word, hcovers⟩ := covers_spelled hletters rest
      exact ⟨word, _, rest, hrest.symm, hcovers⟩
    · have alone : ∀ word ∈ spelled, ∀ after, word.map Token.char ++ after ≠ .char c :: tokens :=
        fun word hspelled after hafter => hword ⟨word, hspelled, after, hafter⟩
      have htoken : (Token.char c).isOperator = false := by
        simpa [Token.isOperator] using hoperator
      refine ⟨ofChar c, _, tokens, rfl, covers_single htoken (isOperator_ofChar hoperator) ?_⟩
      exact fun right hright => words_of_alone hdigit (alone_append_stops hright alone)

/-! ## What words tell about tokens -/

/-- A property of sequences of tokens which holds of one if it holds behind its first word. -/
theorem words_induction {P : List Token → Prop} (nil : P [])
    (operator : ∀ c ∈ operators, ∀ tokens, P tokens → P (.char c :: tokens))
    (covers : ∀ word front rest, Covers word front rest → P rest → P (front ++ rest))
    (tokens : List Token) : P tokens := by
  induction hlength : tokens.length using Nat.strong_induction_on generalizing tokens with
  | _ length ih =>
    cases tokens with
    | nil => exact nil
    | cons token tokens =>
      subst hlength
      obtain ⟨c, hc, rfl, -⟩ | ⟨word, front, rest, hsplit, hcovers⟩ := words_cases token tokens
      · exact operator c hc tokens (ih _ (Nat.lt_succ_self _) tokens rfl)
      · rw [hsplit]
        refine covers word front rest hcovers (ih _ ?_ rest rfl)
        have hpositive := List.length_pos_iff.mpr hcovers.ne_nil
        rw [hsplit, List.length_append]
        omega

/-- Tokens which a word covers are cut into this word. -/
theorem Covers.words {word : Lexeme} {front rest : List Token} (h : Covers word front rest) :
    Lexeme.words (front ++ rest) = word :: Lexeme.words rest := by
  have hwords := h.words_eq [] trivial
  rwa [List.append_nil] at hwords

/-- Words are cut separately in front of what cannot continue them. -/
theorem words_append_stops (hstops : Stops right) (tokens : List Token) :
    words (tokens ++ right) = words tokens ++ words right := by
  induction tokens using words_induction with
  | nil => rfl
  | operator c hc tokens ih =>
    rw [List.cons_append, Line.Spells.words_sign hc, Line.Spells.words_sign hc, ih,
      List.cons_append]
  | covers word front rest h ih =>
    rw [List.append_assoc, h.words_eq right hstops, h.words, ih, List.cons_append]

/-- Whether the next sign belongs to its operand can be told from tokens as from their words. -/
theorem unaryAfter_words (unary : Bool) (tokens : List Token) :
    unaryAfter unary (words tokens) = Token.unaryAfter unary tokens := by
  induction tokens using words_induction generalizing unary with
  | nil => rfl
  | operator c hc tokens ih =>
    have hword : (ofChar c).isOperator = (Token.char c).isOperator := by
      simp only [operators, List.mem_cons, List.not_mem_nil, or_false] at hc
      obtain rfl | rfl | rfl := hc <;> rfl
    rw [Line.Spells.words_sign hc, unaryAfter, List.foldl_cons, hword]
    exact ih _
  | covers word front rest h ih =>
    have hfront : Token.unaryAfter unary (front ++ rest) = Token.unaryAfter false rest := by
      rw [Token.unaryAfter, List.foldl_append]
      congr 1
      exact Token.unaryAfter_of_not_isOperator h.ne_nil h.tokens_plain
    rw [h.words, unaryAfter, List.foldl_cons, h.word_plain, hfront]
    exact ih false

/-- Tokens without a sign which adds or subtracts are not cut among their words either. -/
theorem summands_words {unary : Bool} {tokens : List Token} (h : Token.Uncut unary tokens) :
    summands unary (words tokens) = (words tokens, []) := by
  induction tokens using words_induction generalizing unary with
  | nil => rfl
  | operator c hc tokens ih =>
    obtain ⟨hsign, hrest⟩ := h
    rw [Line.Spells.words_sign hc, summands_cons_eq_iff]
    simp only [operators, List.mem_cons, List.not_mem_nil, or_false] at hc
    obtain rfl | rfl | rfl := hc
    · exact ⟨hsign ⟨_, by decide, rfl⟩, ih hrest⟩
    · exact ⟨hsign ⟨_, by decide, rfl⟩, ih hrest⟩
    · exact ⟨rfl, ih hrest⟩
  | covers word front rest hcovers ih =>
    obtain ⟨-, hrest⟩ := Token.uncut_append.mp h
    rw [Token.unaryAfter_of_not_isOperator hcovers.ne_nil hcovers.tokens_plain] at hrest
    rw [hcovers.words, summands_cons_eq_iff, hcovers.word_plain]
    refine ⟨?_, ih hrest⟩
    have hplain := hcovers.word_plain
    cases word with
    | plus | minus | times => cases hplain
    | _ => rfl

/-- Without a multiplication sign among tokens there is none among their words. -/
theorem times_notMem_words {tokens : List Token} (h : .char '*' ∉ tokens) :
    .times ∉ words tokens := by
  induction tokens using words_induction with
  | nil => exact List.not_mem_nil
  | operator c hc tokens ih =>
    rw [List.mem_cons, not_or] at h
    rw [Line.Spells.words_sign hc, List.mem_cons, not_or]
    refine ⟨?_, ih h.2⟩
    simp only [operators, List.mem_cons, List.not_mem_nil, or_false] at hc
    obtain rfl | rfl | rfl := hc
    · nofun
    · nofun
    · exact absurd rfl h.1
  | covers word front rest hcovers ih =>
    rw [List.mem_append, not_or] at h
    rw [hcovers.words, List.mem_cons, not_or]
    refine ⟨?_, ih h.2⟩
    rintro rfl
    cases hcovers.word_plain

/-! ## Words behind an operand -/

/-- Only a token which is an exponent is cut into one. -/
theorem next_ne_power {token : Token} (h : ∀ exponent, token ≠ .power exponent)
    (tokens : List Token) (exponent : Outcome) : (next token tokens).1 ≠ .power exponent := by
  cases token with
  | operand value => rintro ⟨⟩
  | power exponent => exact absurd rfl (h exponent)
  | char c =>
    rw [next]
    repeat' split
    any_goals rintro ⟨⟩
    rw [ofChar]
    repeat' split
    all_goals rintro ⟨⟩

/-- What does not begin with a power multiplies what is before it. -/
theorem exists_following {token : Token} (h : ∀ exponent, token ≠ .power exponent)
    (tokens : List Token) :
    ∃ outcome, following (words (token :: tokens)) = ⟨[], some outcome⟩ := by
  have hword := next_ne_power h tokens
  rw [words_cons]
  cases hfirst : (next token tokens).1 with
  | power exponent => exact absurd hfirst (hword exponent)
  | _ => exact ⟨_, rfl⟩

/-- A character which is neither a digit nor the beginning of a word which is spelled out is a word
of its own. -/
theorem words_of_char {c : Char} {tokens : List Token} (hdigit : c.isDigit = false)
    (hfunction : function? (.char c :: tokens) = none)
    (hpi : spells "pi".toList (.char c :: tokens) = false) :
    words (.char c :: tokens) = ofChar c :: words tokens := by
  rw [words_cons, next, hdigit, hfunction, hpi]
  rfl

end Lexeme

/-- The last summand is added to or subtracted from the sum of the others. -/
theorem Lexeme.sumOf_concat (first : Outcome) (others : List (Operator × List Lexeme))
    (sign : Operator) (words : List Lexeme) : sumOf first (others ++ [(sign, words)]) = do
      let left ← sumOf first others
      return .binary sign left (← product words) := by
  simp only [sumOf, List.foldlM_append, List.foldlM_cons, List.foldlM_nil, bind_assoc, bind_pure]

/-! ## Sums of tokens -/

namespace Token

variable {left right tokens : List Token}

/-- Tokens without a sign which adds or subtracts are a product. -/
theorem sum_of_uncut (h : Uncut true tokens) :
    Token.sum tokens = Lexeme.product (Lexeme.words tokens) := by
  rw [Token.sum, Lexeme.sum, Lexeme.summands_words h]
  exact bind_pure _

/-- What is behind the last sign which adds or subtracts is added to or subtracted from what is
before it. -/
theorem sum_append_sign {sign : Operator} {c : Char} (hsign : (c = '+' ∧ sign = .plus) ∨
    (c = '-' ∧ sign = .minus)) (hleft : unaryAfter true left = false) (hright : Uncut true right) :
    Token.sum (left ++ .char c :: right) = do
      let value ← Token.sum left
      return .binary sign value (← Token.sum right) := by
  have hc : c ∈ operators := by
    obtain ⟨rfl, -⟩ | ⟨rfl, -⟩ := hsign <;> decide
  have hword : Lexeme.ofChar c = Lexeme.ofSign sign := by
    obtain ⟨rfl, rfl⟩ | ⟨rfl, rfl⟩ := hsign <;> rfl
  have hstops : Lexeme.Stops (.char c :: right) := hc
  have hsummands := Lexeme.summands_append_sign (hsign.imp And.right And.right)
    ((Lexeme.unaryAfter_words true left).trans hleft) (Lexeme.summands_words hright)
  rw [sum_of_uncut hright, Token.sum, Lexeme.words_append_stops hstops,
    Line.Spells.words_sign hc, hword, Lexeme.sum, hsummands]
  exact Lexeme.sumOf_concat _ _ sign _

/-- Without an operator between them, tokens are one signed term. -/
theorem sum_of_notMem (h : Uncut true tokens) (htimes : .char '*' ∉ tokens) :
    Token.sum tokens = Lexeme.signed (Lexeme.words tokens) := by
  rw [sum_of_uncut h, Lexeme.product,
    Lexeme.factors_of_notMem (Lexeme.times_notMem_words htimes)]
  rfl

/-- What is behind the first operator of a product is multiplied by what is before it. -/
theorem sum_append_times (hleft : Uncut true left) (htimes : .char '*' ∉ left)
    (hright : Uncut true right) :
    Token.sum (left ++ .char '*' :: right) = do
      let value ← Token.sum left
      return .binary .times value (← Token.sum right) := by
  have hstops : Lexeme.Stops (.char '*' :: right) := (by decide : '*' ∈ operators)
  have huncut : Uncut true (left ++ .char '*' :: right) := by
    refine uncut_append.mpr ⟨hleft, ?_, hright⟩
    rintro ⟨c, hc, heq⟩
    cases heq
    exact absurd hc (by decide)
  rw [sum_of_uncut huncut, Lexeme.words_append_stops hstops, Line.Spells.words_sign (by decide),
    Lexeme.product, show Lexeme.ofChar '*' = .times from rfl,
    Lexeme.factors_append_times (Lexeme.times_notMem_words htimes), sum_of_notMem hleft htimes,
    sum_of_uncut hright]
  rfl

/-- Without an operator, a minus sign in front applies to everything behind it. -/
theorem sum_minus (h : Uncut true tokens) (htimes : .char '*' ∉ tokens) :
    Token.sum (.char '-' :: tokens) = (Token.sum tokens).map (.unary .minus) := by
  have huncut : Uncut true (.char '-' :: tokens) := ⟨fun _ => rfl, h⟩
  have hnotMem : .char '*' ∉ .char '-' :: tokens :=
    List.not_mem_cons_of_ne_of_not_mem nofun htimes
  rw [sum_of_notMem huncut hnotMem, sum_of_notMem h htimes, Line.Spells.words_sign (by decide)]
  rfl

/-- Without an operator there is a term, unless there is a minus sign in front. -/
theorem sum_term (h : Uncut true tokens) (htimes : .char '*' ∉ tokens)
    (hminus : tokens.head? ≠ some (.char '-')) :
    Token.sum tokens = Lexeme.term (Lexeme.words tokens) := by
  rw [sum_of_notMem h htimes]
  cases tokens with
  | nil => rfl
  | cons token tokens =>
    obtain ⟨c, hc, rfl, hwords⟩ | ⟨word, front, rest, hsplit, hcovers⟩ :=
      Lexeme.words_cases token tokens
    · rw [hwords]
      simp only [operators, List.mem_cons, List.not_mem_nil, or_false] at hc
      obtain rfl | rfl | rfl := hc
      · rfl
      · exact absurd rfl hminus
      · rfl
    · rw [hsplit, hcovers.words]
      have hplain := hcovers.word_plain
      cases word with
      | plus | minus | times => cases hplain
      | _ => rfl

/-- What no sign or operator can begin is a term. -/
theorem sum_of_uncut_false (h : Uncut false tokens) (htimes : .char '*' ∉ tokens) :
    Token.sum tokens = Lexeme.term (Lexeme.words tokens) := by
  refine sum_term h.mono htimes fun hhead => ?_
  cases tokens with
  | nil => cases hhead
  | cons token tokens => cases h.1 ⟨'-', by decide, Option.some.inj hhead⟩

end Token

end FormulaEditor
