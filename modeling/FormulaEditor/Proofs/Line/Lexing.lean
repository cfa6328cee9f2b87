import FormulaEditor.Line.Lexeme
import FormulaEditor.Proofs.Formula.Literal
import FormulaEditor.Proofs.Text.Letters

/-!
# The first word of a sequence

Greedy lexing as a relation: which word a sequence begins with, and what comes after it
(`Lexeme.Begins`). A number is the longest numeral in front, and the name of a function and the word
`pi` win over single letters. A sequence is cut into words accordingly (`Lexeme.words_of_begins`),
and begins either with a word or with a stray character (`Lexeme.exists_begins`).
-/

set_option autoImplicit false

namespace FormulaEditor

namespace Lexeme

/-! ## The numeral in front of a sequence -/

/-- The digits in front of a sequence are all those of a run of digits which it begins with, and
the digits after them. -/
theorem digits_append {text : List Char} (h : ∀ c ∈ text, c.isDigit = true)
    (tokens : List Token) : digits (text.map .char ++ tokens) = text ++ digits tokens := by
  induction text with
  | nil => rfl
  | cons c text ih =>
    have hc := h c List.mem_cons_self
    rw [List.map_cons, List.cons_append, digits, Token.digit?, if_pos hc]
    exact congrArg (c :: ·) (ih fun d hd => h d (List.mem_cons_of_mem _ hd))

/-- A sequence begins with the digits in front of it. -/
theorem eq_digits_append (tokens : List Token) :
    (∀ c ∈ digits tokens, c.isDigit = true) ∧
      tokens = (digits tokens).map .char ++ tokens.drop (digits tokens).length := by
  induction tokens with
  | nil => exact ⟨nofun, rfl⟩
  | cons token tokens ih =>
    rw [digits]
    cases token with
    | operand value => exact ⟨nofun, rfl⟩
    | power exponent => exact ⟨nofun, rfl⟩
    | char c =>
      by_cases hc : c.isDigit = true
      · simp only [Token.digit?, if_pos hc]
        refine ⟨?_, congrArg (Token.char c :: ·) ih.2⟩
        intro d hd
        obtain rfl | hd := List.mem_cons.mp hd
        · exact hc
        · exact ih.1 d hd
      · simp only [Token.digit?, if_neg hc]
        exact ⟨nofun, rfl⟩

/-- The numeral in front of a sequence, or nothing if there is no digit in front. -/
def numeral (tokens : List Token) : List Char :=
  digits tokens ++ fraction (tokens.drop (digits tokens).length)

/-- A point before digits is a fraction with these digits. -/
theorem fraction_point {tokens : List Token} (h : digits tokens ≠ []) :
    fraction (.char '.' :: tokens) = '.' :: digits tokens := by
  rw [fraction]
  cases hdigits : digits tokens with
  | nil => exact absurd hdigits h
  | cons c places => rfl

/-- Either there is a point with digits in front of a sequence, or no fraction is found. -/
theorem fraction_cases (tokens : List Token) :
    fraction tokens = [] ∨ ∃ rest, tokens = .char '.' :: rest ∧ digits rest ≠ [] := by
  cases tokens with
  | nil => exact .inl rfl
  | cons token rest =>
    cases token with
    | operand value => exact .inl rfl
    | power exponent => exact .inl rfl
    | char c =>
      by_cases hc : c = '.'
      · subst hc
        cases hdigits : digits rest with
        | nil =>
          left
          rw [fraction, hdigits]
        | cons d places => exact .inr ⟨rest, rfl, by simp [hdigits]⟩
      · left
        rw [fraction]
        intro others h
        cases h
        exact hc rfl

/-- The digits in front of a sequence are digits. -/
theorem isDigits_digits {tokens : List Token} (h : digits tokens ≠ []) :
    Literal.isDigits (digits tokens) = true := by
  rw [Literal.isDigits_iff]
  exact ⟨h, (eq_digits_append tokens).1⟩

/-- If there is a digit in front, the numeral in front is one, and the sequence begins with it. -/
theorem isUnsigned_numeral {tokens : List Token} (h : digits tokens ≠ []) :
    Literal.isUnsigned (numeral tokens) = true ∧
      ∃ rest, tokens = (numeral tokens).map .char ++ rest := by
  obtain ⟨-, hsplit⟩ := eq_digits_append tokens
  obtain hnone | ⟨rest, hrest, hplaces⟩ := fraction_cases (tokens.drop (digits tokens).length)
  · rw [numeral, hnone, List.append_nil, Literal.isUnsigned_iff]
    exact ⟨⟨_, isDigits_digits h, .inl rfl⟩, _, hsplit⟩
  · rw [numeral, hrest, fraction_point hplaces, Literal.isUnsigned_iff]
    refine ⟨⟨_, isDigits_digits h, .inr ⟨_, isDigits_digits hplaces, rfl⟩⟩, ?_⟩
    refine ⟨rest.drop (digits rest).length, ?_⟩
    rw [List.map_append, List.append_assoc, List.map_cons, List.cons_append,
      ← (eq_digits_append rest).2, ← hrest]
    exact hsplit

/-- No numeral which a sequence begins with is longer than the one in front of it. -/
theorem length_le_numeral {text : List Char} (h : Literal.isUnsigned text = true)
    (rest : List Token) : text.length ≤ (numeral (text.map .char ++ rest)).length := by
  obtain ⟨whole, hwhole, hform⟩ := Literal.isUnsigned_iff.mp h
  have hwhole := (Literal.isDigits_iff.mp hwhole).2
  obtain rfl | ⟨places, hplaces, rfl⟩ := hform
  · rw [numeral, digits_append hwhole, List.length_append, List.length_append]
    omega
  · obtain ⟨hne, hplaces⟩ := Literal.isDigits_iff.mp hplaces
    have hcut : digits ((whole ++ '.' :: places).map .char ++ rest) = whole := by
      rw [List.map_append, List.append_assoc, digits_append hwhole]
      exact List.append_nil whole
    have hmore : digits (places.map .char ++ rest) ≠ [] := by
      rw [digits_append hplaces]
      rintro hnil
      rw [List.append_eq_nil_iff] at hnil
      exact hne hnil.1
    have hdrop : ((whole ++ '.' :: places).map Token.char ++ rest).drop whole.length =
        .char '.' :: (places.map .char ++ rest) := by
      rw [List.map_append, List.append_assoc]
      exact List.drop_left' (List.length_map ..)
    rw [numeral, hcut, hdrop, fraction_point hmore, digits_append hplaces]
    simp only [List.length_append, List.length_cons]
    omega

/-! ## Words in front of a sequence -/

section Begins

variable {α : Type}

/-- The words which are spelled out letter by letter. -/
def spelled : List (List Char) :=
  "pi".toList :: Operator.functions.map fun op => op.tag.toList

/-- A sequence begins with a word, and goes on with what is left behind it. What a character looks
like in the sequence is given by `plain`. -/
inductive Begins (plain : Char → α) : List α → Lexeme → List α → Prop
  /-- A number is the longest numeral in front. -/
  | number {text : List Char} {rest : List α} (h : Literal.isUnsigned text = true)
      (longest : ∀ other after, Literal.isUnsigned other = true →
        other.map plain ++ after = text.map plain ++ rest → other.length ≤ text.length) :
      Begins plain (text.map plain ++ rest) (.operand (.ok (.number (String.ofList text)))) rest
  | function {op : Operator} {rest : List α} (h : op ∈ Operator.functions) :
      Begins plain (op.tag.toList.map plain ++ rest) (.function op) rest
  | pi {rest : List α} :
      Begins plain ("pi".toList.map plain ++ rest) (.operand (.ok (.constant .pi))) rest
  | constant (name : Constant) {rest : List α} :
      Begins plain (plain name.letter :: rest) (.operand (.ok (.constant name))) rest
  /-- A letter which stands for no constant counts on its own if no word is spelled out. -/
  | letter {c : Char} {rest : List α} (h : Text.isAlphabetic c = true)
      (unnamed : ∀ name : Constant, c ≠ name.letter)
      (alone : ∀ word ∈ spelled, ∀ after, word.map plain ++ after ≠ plain c :: rest) :
      Begins plain (plain c :: rest) (.operand (.ok (.identifier c))) rest
  | plus {rest : List α} : Begins plain (plain '+' :: rest) .plus rest
  | minus {rest : List α} : Begins plain (plain '-' :: rest) .minus rest
  | times {rest : List α} : Begins plain (plain '*' :: rest) .times rest

/-- The first word takes at least one character. -/
theorem Begins.exists_append {plain : Char → α} {items rest : List α} {word : Lexeme}
    (h : Begins plain items word rest) :
    ∃ (c : Char) (text : List Char), items = plain c :: (text.map plain ++ rest) := by
  cases h with
  | number h longest =>
    obtain ⟨c, text, rfl, -⟩ := Literal.exists_digit_of_isUnsigned h
    exact ⟨c, text, rfl⟩
  | @function op rest h => cases op <;> exact ⟨_, _, rfl⟩
  | pi => exact ⟨'p', ['i'], rfl⟩
  | constant name => exact ⟨name.letter, [], rfl⟩
  | @letter c rest h unnamed alone => exact ⟨c, [], rfl⟩
  | plus => exact ⟨'+', [], rfl⟩
  | minus => exact ⟨'-', [], rfl⟩
  | times => exact ⟨'*', [], rfl⟩

end Begins

/-! ## Ordinary characters -/

/-- A character which is shown as it is: no delimiter, and none which stands for something else. -/
def Ordinary (c : Char) : Prop :=
  c ∉ ['%', '^', '(', ')', '|', '_']

/-- Whether a character is shown as it is can be decided. -/
instance (c : Char) : Decidable (Ordinary c) :=
  inferInstanceAs (Decidable (c ∉ _))

/-- The characters of an unsigned literal are shown as they are. -/
theorem ordinary_of_isUnsigned {text : List Char} (h : Literal.isUnsigned text = true) :
    ∀ c ∈ text, Ordinary c := by
  intro c hc
  obtain hdigit | rfl := Literal.isDigit_or_point h hc
  · intro hmem
    simp only [List.mem_cons, List.not_mem_nil, or_false] at hmem
    obtain rfl | rfl | rfl | rfl | rfl | rfl := hmem <;> cases hdigit
  · decide

/-- Letters are shown as they are. -/
theorem ordinary_of_isAlphabetic {c : Char} (h : Text.isAlphabetic c = true) : Ordinary c := by
  have hothers : ['%', '^', '(', ')', '|', '_'] ⊆
      ['+', '-', '*', '(', ')', '%', '.', '^', '_', '|', '∞'] := by decide
  exact fun hmem => Text.ne_of_isAlphabetic h (hothers hmem) rfl

/-- The letter of a constant is shown as it is. -/
theorem ordinary_letter (name : Constant) : Ordinary name.letter := by
  cases name <;> decide

/-- The names of functions are spelled out. -/
theorem tag_mem_spelled {op : Operator} (h : op ∈ Operator.functions) : op.tag.toList ∈ spelled :=
  List.mem_cons_of_mem _ (List.mem_map_of_mem h)

/-- Words which are spelled out are made of characters which are shown as they are. -/
theorem ordinary_spelled : ∀ word ∈ spelled, ∀ c ∈ word, Ordinary c := by
  intro word hword c hc
  have hall : ∀ word ∈ spelled, word.all (fun c => decide (Ordinary c)) = true := by decide
  exact of_decide_eq_true (List.all_eq_true.mp (hall word hword) c hc)

/-! ## Words which are spelled out -/

/-- A word of letters is spelled by a sequence which begins with its letters. -/
theorem spells_iff {letters : List Char} (h : ∀ c ∈ letters, Ordinary c)
    (tokens : List Token) :
    spells letters tokens = true ↔ ∃ rest, tokens = letters.map .char ++ rest := by
  induction letters generalizing tokens with
  | nil => exact ⟨fun _ => ⟨tokens, rfl⟩, fun _ => rfl⟩
  | cons letter letters ih =>
    have hletter := h letter List.mem_cons_self
    have ih := ih fun c hc => h c (List.mem_cons_of_mem _ hc)
    cases tokens with
    | nil => simp [spells]
    | cons token tokens =>
      rw [spells, Bool.and_eq_true, decide_eq_true_eq, ih]
      constructor
      · rintro ⟨rfl, rest, rfl⟩
        cases token with
        | char c => exact ⟨rest, rfl⟩
        | operand value => exact absurd hletter (by decide : ¬Ordinary '%')
        | power exponent => exact absurd hletter (by decide : ¬Ordinary '^')
      · rintro ⟨rest, hrest⟩
        cases hrest
        exact ⟨rfl, rest, rfl⟩

/-- A function is found just if its name is spelled in front. -/
theorem function?_eq_some_iff {tokens : List Token} {op : Operator} :
    function? tokens = some op ↔
      op ∈ Operator.functions ∧ ∃ rest, tokens = op.tag.toList.map .char ++ rest := by
  have hspells : ∀ op ∈ Operator.functions, spells op.tag.toList tokens = true ↔
      ∃ rest, tokens = op.tag.toList.map .char ++ rest := fun op hop =>
    spells_iff (ordinary_spelled _ (tag_mem_spelled hop)) tokens
  -- the names begin with different letters, so the order of the search does not matter
  have hheads : ∀ op ∈ Operator.functions, ∀ other ∈ Operator.functions,
      op.tag.toList.head? = other.tag.toList.head? → op = other := by
    decide
  have hne : ∀ op ∈ Operator.functions, ∃ c letters, op.tag.toList = c :: letters := by
    intro op hop
    cases op <;> exact ⟨_, _, rfl⟩
  constructor
  · intro h
    have hop := List.mem_of_find?_eq_some h
    have hfound : spells op.tag.toList tokens = true := by simpa using List.find?_some h
    exact ⟨hop, (hspells op hop).mp hfound⟩
  · rintro ⟨hop, rest, hrest⟩
    have hsome : (function? tokens).isSome = true := by
      rw [function?, List.find?_isSome]
      exact ⟨op, hop, (hspells op hop).mpr ⟨rest, hrest⟩⟩
    obtain ⟨found, hfound⟩ := Option.isSome_iff_exists.mp hsome
    have hmem := List.mem_of_find?_eq_some hfound
    have hspelled : spells found.tag.toList tokens = true := by simpa using List.find?_some hfound
    obtain ⟨after, hafter⟩ := (hspells found hmem).mp hspelled
    obtain ⟨c, letters, hc⟩ := hne op hop
    obtain ⟨d, others, hd⟩ := hne found hmem
    rw [hrest, hc, hd] at hafter
    have hcd : c = d := Token.char.inj (List.cons.inj hafter).1
    rw [hfound, hheads op hop found hmem (by rw [hc, hd, hcd]; rfl)]

/-! ## Cutting behind the first word -/

/-- What is left of a sequence after some tokens is cut into words on its own. -/
theorem wordsAfter_eq (skipped : Nat) (tokens : List Token) :
    wordsAfter skipped tokens = words (tokens.drop skipped) := by
  induction skipped generalizing tokens with
  | zero => rfl
  | succ skipped ih =>
    cases tokens with
    | nil => rfl
    | cons token tokens => exact ih tokens

/-- The words of a sequence are its first word and those of what is left behind it. -/
theorem words_cons (token : Token) (tokens : List Token) :
    words (token :: tokens) =
      (next token tokens).1 :: words (tokens.drop (next token tokens).2) := by
  rw [← wordsAfter_eq]
  rfl

/-- A sequence with a digit in front begins with the longest numeral as a number. -/
theorem words_of_digits {tokens : List Token} (h : digits tokens ≠ []) :
    words tokens = .operand (.ok (.number (String.ofList (numeral tokens)))) ::
      words (tokens.drop (numeral tokens).length) := by
  cases tokens with
  | nil => exact absurd rfl h
  | cons token tokens =>
    cases token with
    | operand value => exact absurd rfl h
    | power exponent => exact absurd rfl h
    | char c =>
      by_cases hc : c.isDigit = true
      · have hdigits : digits (.char c :: tokens) = c :: digits tokens := by
          rw [digits, Token.digit?, if_pos hc]
        have hnumeral : numeral (.char c :: tokens) =
            c :: digits tokens ++ fraction (tokens.drop (digits tokens).length) := by
          rw [numeral, hdigits]
          rfl
        rw [words_cons, next, if_pos hc, hnumeral, List.cons_append, List.length_cons,
          List.drop_succ_cons, List.length_append]
        rfl
      · rw [digits, Token.digit?, if_neg hc] at h
        exact absurd rfl h

/-- No function has a name in front if no name begins with the first character. -/
theorem function?_eq_none {c : Char} {tokens : List Token}
    (h : ∀ op ∈ Operator.functions, ∀ after,
      op.tag.toList.map .char ++ after ≠ .char c :: tokens) :
    function? (.char c :: tokens) = none := by
  cases hfound : function? (.char c :: tokens) with
  | none => rfl
  | some op =>
    obtain ⟨hop, after, hafter⟩ := function?_eq_some_iff.mp hfound
    exact absurd hafter.symm (h op hop after)

/-- A character which is no digit and begins no word counts on its own. -/
theorem words_of_alone {c : Char} {tokens : List Token} (hdigit : c.isDigit = false)
    (alone : ∀ word ∈ spelled, ∀ after, word.map .char ++ after ≠ .char c :: tokens) :
    words (.char c :: tokens) = ofChar c :: words tokens := by
  have hfunction : function? (.char c :: tokens) = none :=
    function?_eq_none fun op hop => alone _ (tag_mem_spelled hop)
  have hpi : spells "pi".toList (.char c :: tokens) = false := by
    rw [Bool.eq_false_iff]
    intro hspells
    obtain ⟨after, hafter⟩ := (spells_iff (ordinary_spelled _ List.mem_cons_self) _).mp hspells
    exact alone _ List.mem_cons_self after hafter.symm
  rw [words_cons, next, hdigit, hfunction, hpi]
  rfl

/-- A word which does not begin with a character is not spelled in front of it. -/
theorem append_ne_of_head {word : List Char} {c : Char} {tokens : List Token} (hne : word ≠ [])
    (h : word.head? ≠ some c) (after : List Token) :
    word.map .char ++ after ≠ .char c :: tokens := by
  intro heq
  cases word with
  | nil => exact hne rfl
  | cons d word =>
    have hd : d = c := Token.char.inj (List.cons.inj heq).1
    exact h (congrArg some hd)

/-- A character with which no word begins counts on its own. -/
theorem alone_of_heads {c : Char} {tokens : List Token}
    (h : ∀ word ∈ spelled, word ≠ [] ∧ word.head? ≠ some c) :
    ∀ word ∈ spelled, ∀ after, word.map .char ++ after ≠ .char c :: tokens :=
  fun word hword => append_ne_of_head (h word hword).1 (h word hword).2

/-- A character which is neither a sign nor the name of a constant is a letter or a stray one. -/
theorem ofChar_of_unnamed {c : Char} (hsign : c ∉ ['+', '-', '*'])
    (unnamed : ∀ name : Constant, c ≠ name.letter) :
    ofChar c =
      if Text.isAlphabetic c then .operand (.ok (.identifier c)) else .stray c := by
  have hpi : c ≠ 'π' := unnamed .pi
  have he : c ≠ 'e' := unnamed .exponentialE
  have hinfinity : c ≠ '∞' := unnamed .infinity
  simp only [List.mem_cons, List.not_mem_nil, or_false, not_or] at hsign
  obtain ⟨hplus, hminus, htimes⟩ := hsign
  rw [ofChar, if_neg hplus, if_neg hminus, if_neg htimes, if_neg hpi, if_neg he,
    if_neg hinfinity]

/-- The longest numeral in front of a sequence is the one which is taken. -/
theorem numeral_of_longest {text : List Char} {rest : List Token}
    (h : Literal.isUnsigned text = true)
    (longest : ∀ other after, Literal.isUnsigned other = true →
      other.map Token.char ++ after = text.map .char ++ rest → other.length ≤ text.length) :
    digits (text.map .char ++ rest) ≠ [] ∧ numeral (text.map .char ++ rest) = text := by
  have hne : digits (text.map .char ++ rest) ≠ [] := by
    obtain ⟨c, more, rfl, hc⟩ := Literal.exists_digit_of_isUnsigned h
    rw [List.map_cons, List.cons_append, digits, Token.digit?, if_pos hc]
    exact List.cons_ne_nil _ _
  refine ⟨hne, ?_⟩
  -- both are in front of the sequence, and neither is longer than the other
  obtain ⟨hnumeral, after, hafter⟩ := isUnsigned_numeral hne
  have hlength : text.length = (numeral (text.map .char ++ rest)).length :=
    Nat.le_antisymm (length_le_numeral h rest) (longest _ after hnumeral hafter.symm)
  have hmap := (List.append_inj hafter (by rw [List.length_map, List.length_map, hlength])).1
  exact ((List.map_inj_right fun _ _ => Token.char.inj).mp hmap).symm

/-- A sequence with the name of a function in front begins with this function. -/
theorem words_of_function {op : Operator} (h : op ∈ Operator.functions) (rest : List Token) :
    words (op.tag.toList.map .char ++ rest) = .function op :: words rest := by
  have hfunction := function?_eq_some_iff.mpr ⟨h, rest, rfl⟩
  obtain ⟨c, letters, htag, hdigit⟩ : ∃ c letters, op.tag.toList = c :: letters ∧
      c.isDigit = false := by
    cases op <;> exact ⟨_, _, rfl, rfl⟩
  have hlength : op.tag.length = letters.length + 1 := by
    rw [← String.length_toList, htag]
    rfl
  rw [htag, List.map_cons, List.cons_append] at hfunction ⊢
  rw [words_cons, next, hdigit, hfunction]
  show _ :: words (List.drop (op.tag.length - 1) _) = _
  rw [hlength, Nat.add_sub_cancel, List.drop_left' (List.length_map ..)]
  rfl

/-- A sequence is cut behind the word `pi`, which is the beginning of no name of a function. -/
theorem words_of_pi (rest : List Token) :
    words ("pi".toList.map .char ++ rest) = .operand (.ok (.constant .pi)) :: words rest := by
  have hfunction : function? (.char 'p' :: .char 'i' :: rest) = none := by
    refine function?_eq_none fun op hop => append_ne_of_head ?_ ?_
    · cases op <;> decide
    · cases op <;> first | decide | exact absurd hop (by decide)
  show words (.char 'p' :: .char 'i' :: rest) = _
  rw [words_cons, next, if_neg (by decide), hfunction]
  rfl

/-- A sequence is cut into its first word and the words behind it. -/
theorem words_of_begins {tokens rest : List Token} {word : Lexeme}
    (h : Begins Token.char tokens word rest) : words tokens = word :: words rest := by
  cases h with
  | number h longest =>
    obtain ⟨hne, hnumeral⟩ := numeral_of_longest h longest
    rw [words_of_digits hne, hnumeral, List.drop_left' (List.length_map ..)]
  | function h => exact words_of_function h rest
  | pi => exact words_of_pi rest
  | constant name =>
    rw [words_of_alone]
    · cases name <;> rfl
    · cases name <;> decide
    · exact alone_of_heads (by cases name <;> decide)
  | @letter c rest h unnamed alone =>
    have hsign : c ∉ ['+', '-', '*'] := fun hc =>
      Text.ne_of_isAlphabetic h (List.mem_append_left _ hc) rfl
    rw [words_of_alone (Text.isDigit_of_isAlphabetic h) alone, ofChar_of_unnamed hsign unnamed,
      if_pos h]
  | plus | minus | times =>
    rw [words_of_alone (by decide) (alone_of_heads (by decide))]
    rfl

/-- A sequence with a digit in front begins with a number. -/
theorem begins_number {tokens : List Token} (h : digits tokens ≠ []) :
    ∃ word rest, Begins Token.char tokens word rest := by
  obtain ⟨hnumeral, rest, hrest⟩ := isUnsigned_numeral h
  have longest : ∀ other after, Literal.isUnsigned other = true →
      other.map Token.char ++ after = (numeral tokens).map .char ++ rest →
      other.length ≤ (numeral tokens).length := by
    intro other after hother hafter
    rw [← hrest] at hafter
    rw [← hafter]
    exact length_le_numeral hother after
  have hbegins := Begins.number hnumeral longest
  rw [← hrest] at hbegins
  exact ⟨_, rest, hbegins⟩

/-- A sequence which begins with a character begins with a word, unless the character is a stray
one. -/
theorem exists_begins (c : Char) (tokens : List Token) :
    (∃ word rest, Begins Token.char (.char c :: tokens) word rest) ∨
      ∃ d rest, words (.char c :: tokens) = .stray d :: rest := by
  -- the cases are in the order in which words are looked for
  by_cases hdigit : c.isDigit = true
  · left
    apply begins_number
    rw [digits, Token.digit?, if_pos hdigit]
    exact List.cons_ne_nil _ _
  rw [Bool.not_eq_true] at hdigit
  by_cases hword : ∃ word ∈ spelled, ∃ after, word.map Token.char ++ after = .char c :: tokens
  · left
    obtain ⟨word, hspelled, after, hafter⟩ := hword
    rw [← hafter]
    obtain rfl | hspelled := List.mem_cons.mp hspelled
    · exact ⟨_, after, .pi⟩
    · obtain ⟨op, hop, rfl⟩ := List.mem_map.mp hspelled
      exact ⟨_, after, .function hop⟩
  have alone : ∀ word ∈ spelled, ∀ after, word.map Token.char ++ after ≠ .char c :: tokens :=
    fun word hspelled after hafter => hword ⟨word, hspelled, after, hafter⟩
  by_cases hname : ∃ name : Constant, c = name.letter
  · obtain ⟨name, rfl⟩ := hname
    exact .inl ⟨_, tokens, .constant name⟩
  have unnamed : ∀ name : Constant, c ≠ name.letter := fun name hc => hname ⟨name, hc⟩
  by_cases hletter : Text.isAlphabetic c = true
  · exact .inl ⟨_, tokens, .letter hletter unnamed alone⟩
  by_cases hplus : c = '+'
  · subst hplus
    exact .inl ⟨_, tokens, .plus⟩
  by_cases hminus : c = '-'
  · subst hminus
    exact .inl ⟨_, tokens, .minus⟩
  by_cases htimes : c = '*'
  · subst htimes
    exact .inl ⟨_, tokens, .times⟩
  right
  refine ⟨c, words tokens, ?_⟩
  rw [words_of_alone hdigit alone, ofChar_of_unnamed (by simp [hplus, hminus, htimes]) unnamed,
    if_neg hletter]

/-! ## Other views of a sequence -/

variable {α : Type}

/-- Items are seen as tokens in such a way that exactly the plain characters among them are seen as
themselves, and what is behind them is seen separately. -/
def Shows (plain : Char → α) (view : List α → List Token) : Prop :=
  ∀ c, Ordinary c → ∀ items tokens, view items = .char c :: tokens ↔
    ∃ rest, items = plain c :: rest ∧ view rest = tokens

/-- Ordinary characters in front of the tokens are those in front of the items. -/
theorem Shows.append_iff {plain : Char → α} {view : List α → List Token} (h : Shows plain view)
    {text : List Char} (htext : ∀ c ∈ text, Ordinary c) {items : List α} {tokens : List Token} :
    view items = text.map .char ++ tokens ↔
      ∃ rest, items = text.map plain ++ rest ∧ view rest = tokens := by
  induction text generalizing items with
  | nil => simp
  | cons c text ih =>
    have hordinary : ∀ d ∈ text, Ordinary d := fun d hd => htext d (List.mem_cons_of_mem _ hd)
    rw [List.map_cons, List.cons_append, h c (htext c List.mem_cons_self)]
    constructor
    · rintro ⟨rest, rfl, hrest⟩
      obtain ⟨after, rfl, hafter⟩ := (ih hordinary).mp hrest
      exact ⟨after, rfl, hafter⟩
    · rintro ⟨after, rfl, hafter⟩
      exact ⟨_, rfl, (ih hordinary).mpr ⟨after, rfl, hafter⟩⟩

/-- Ordinary characters in front of items are seen as they are. -/
theorem Shows.view_append {plain : Char → α} {view : List α → List Token} (h : Shows plain view)
    {text : List Char} (htext : ∀ c ∈ text, Ordinary c) (rest : List α) :
    view (text.map plain ++ rest) = text.map .char ++ view rest :=
  (h.append_iff htext).mpr ⟨rest, rfl, rfl⟩

/-- An ordinary character in front of items is seen as it is. -/
theorem Shows.view_cons {plain : Char → α} {view : List α → List Token} (h : Shows plain view)
    {c : Char} (hc : Ordinary c) (rest : List α) : view (plain c :: rest) = .char c :: view rest :=
  (h c hc _ _).mpr ⟨rest, rfl, rfl⟩

/-- Items begin with every word with which they are seen to begin. -/
theorem Shows.exists_begins {plain : Char → α} {view : List α → List Token} (h : Shows plain view)
    {items : List α} {word : Lexeme} {tokens : List Token}
    (hbegins : Begins .char (view items) word tokens) :
    ∃ rest, Begins plain items word rest ∧ view rest = tokens := by
  generalize hseen : view items = seen at hbegins
  cases hbegins with
  | number hnumeral longest =>
    obtain ⟨rest, rfl, hrest⟩ := (h.append_iff (ordinary_of_isUnsigned hnumeral)).mp hseen
    refine ⟨rest, .number hnumeral fun other after hother hafter => ?_, hrest⟩
    -- a longer numeral among the items would be one among the tokens
    refine longest other (view after) hother ?_
    rw [← h.view_append (ordinary_of_isUnsigned hother), hafter, hseen]
  | function hop =>
    have hordinary := ordinary_spelled _ (tag_mem_spelled hop)
    obtain ⟨rest, rfl, hrest⟩ := (h.append_iff hordinary).mp hseen
    exact ⟨rest, .function hop, hrest⟩
  | pi =>
    obtain ⟨rest, rfl, hrest⟩ := (h.append_iff (ordinary_spelled _ List.mem_cons_self)).mp hseen
    exact ⟨rest, .pi, hrest⟩
  | constant name =>
    obtain ⟨rest, rfl, hrest⟩ := (h _ (ordinary_letter name) _ _).mp hseen
    exact ⟨rest, .constant name, hrest⟩
  | letter hletter unnamed alone =>
    obtain ⟨rest, rfl, hrest⟩ := (h _ (ordinary_of_isAlphabetic hletter) _ _).mp hseen
    refine ⟨rest, .letter hletter unnamed fun word hword after hafter => ?_, hrest⟩
    refine alone word hword (view after) ?_
    rw [← h.view_append (ordinary_spelled word hword), hafter, hseen]
  | plus =>
    obtain ⟨rest, rfl, hrest⟩ := (h _ (by decide) _ _).mp hseen
    exact ⟨rest, .plus, hrest⟩
  | minus =>
    obtain ⟨rest, rfl, hrest⟩ := (h _ (by decide) _ _).mp hseen
    exact ⟨rest, .minus, hrest⟩
  | times =>
    obtain ⟨rest, rfl, hrest⟩ := (h _ (by decide) _ _).mp hseen
    exact ⟨rest, .times, hrest⟩

/-- The word with which items begin is seen. -/
theorem Shows.begins {plain : Char → α} {view : List α → List Token} (h : Shows plain view)
    {items rest : List α} {word : Lexeme} (hbegins : Begins plain items word rest) :
    Begins .char (view items) word (view rest) := by
  cases hbegins with
  | number hnumeral longest =>
    have hordinary := ordinary_of_isUnsigned hnumeral
    rw [h.view_append hordinary]
    refine .number hnumeral fun other after hother hafter => ?_
    -- a longer numeral among the tokens would be one among the items
    rw [← h.view_append hordinary, eq_comm, h.append_iff (ordinary_of_isUnsigned hother)] at hafter
    obtain ⟨behind, hbehind, -⟩ := hafter
    exact longest other behind hother hbehind.symm
  | function hop =>
    rw [h.view_append (ordinary_spelled _ (tag_mem_spelled hop))]
    exact .function hop
  | pi =>
    rw [h.view_append (ordinary_spelled _ List.mem_cons_self)]
    exact .pi
  | constant name =>
    rw [h.view_cons (ordinary_letter name)]
    exact .constant name
  | letter hletter unnamed alone =>
    have hordinary := ordinary_of_isAlphabetic hletter
    rw [h.view_cons hordinary]
    refine .letter hletter unnamed fun word hword after hafter => ?_
    rw [← h.view_cons hordinary, eq_comm, h.append_iff (ordinary_spelled word hword)] at hafter
    obtain ⟨behind, hbehind, -⟩ := hafter
    exact alone word hword behind hbehind.symm
  | plus =>
    rw [h.view_cons (by decide)]
    exact .plus
  | minus =>
    rw [h.view_cons (by decide)]
    exact .minus
  | times =>
    rw [h.view_cons (by decide)]
    exact .times

end Lexeme

end FormulaEditor
