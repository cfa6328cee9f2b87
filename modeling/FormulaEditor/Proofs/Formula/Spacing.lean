import FormulaEditor.Formula.Compact
import FormulaEditor.Proofs.Formula.Reading

/-!
# Tokens with blanks in between

The compact text of a formula is a sequence of tokens: names, brackets and commas, and the texts of
numbers and identifiers (`Formula.tokens`). They may be laid out with any blanks in front of each of
them and at the end (`Formula.WrittenBy`), and the text which is written for a formula is one such
layout. A formula which is spelled properly is read from its tokens with any blanks, whatever
follows them but a letter, and nothing of what follows is used up (`Reading.readsSpaced`). In turn,
whatever is read in compact form is spelled properly and has the tokens of the formula which is read
(`Reading.compactSound`).
-/

set_option autoImplicit false

namespace FormulaEditor

namespace Formula

mutual

/-- The tokens of the compact text of a formula. -/
def tokens : Formula → List String
  | .number text => ["cn", "(", text, ")"]
  | .identifier letter => ["ci", "(", letter.toString, ")"]
  | .constant name => [name.tag]
  | .degree value => "degree" :: "(" :: (tokens value ++ [")"])
  | .apply op operands => "apply" :: "(" :: op.tag :: (operandTokens operands ++ [")"])

/-- The tokens of a list of operands, each behind a comma. -/
def operandTokens : List Formula → List String
  | [] => []
  | operand :: operands => "," :: (tokens operand ++ operandTokens operands)

end

end Formula

namespace Reading

open Text Formula

/-- A text begins with tokens, with any blanks in front of each of them, and goes on with a rest. -/
inductive Spaced : List String → List Char → List Char → Prop
  | nil (rest : List Char) : Spaced [] rest rest
  | cons (blanks : List Char) (token : String) {tokens : List String} {text rest : List Char}
      (hblanks : blanks.all isBlank = true) (h : Spaced tokens text rest) :
      Spaced (token :: tokens) (blanks ++ (token.toList ++ text)) rest

variable {token word : String} {tokens front back : List String} {c : Char}
  {blanks text middle rest content : List Char}

namespace Spaced

/-- Two sequences of tokens with blanks in between can be put one after the other. -/
theorem append (hfront : Spaced front text middle) (hback : Spaced back middle rest) :
    Spaced (front ++ back) text rest := by
  induction hfront with
  | nil => exact hback
  | cons blanks token hblanks _ ih => exact .cons blanks token hblanks (ih hback)

/-- A sequence of tokens with blanks in between can be cut in two. -/
theorem exists_middle (h : Spaced (front ++ back) text rest) :
    ∃ middle, Spaced front text middle ∧ Spaced back middle rest := by
  induction front generalizing text with
  | nil => exact ⟨text, .nil text, h⟩
  | cons token front ih =>
    cases h with
    | cons blanks token hblanks h =>
      obtain ⟨middle, hfront, hback⟩ := ih h
      exact ⟨middle, .cons blanks token hblanks hfront, hback⟩

/-- A blank may be added in front of a token. -/
theorem blank (h : Spaced (token :: tokens) text rest) (hc : isBlank c = true) :
    Spaced (token :: tokens) (c :: text) rest := by
  cases h with
  | cons blanks _ hblanks h =>
    refine .cons (c :: blanks) token ?_ h
    rw [List.all_cons, hc, hblanks]
    rfl

/-- A single token may have blanks in front of it. -/
theorem singleton (blanks : List Char) (token : String) (rest : List Char)
    (hblanks : blanks.all isBlank = true) :
    Spaced [token] (blanks ++ (token.toList ++ rest)) rest :=
  .cons blanks token hblanks (.nil rest)

/-- In front of a single token there is nothing but blanks. -/
theorem exists_blanks (h : Spaced [token] text rest) :
    ∃ blanks, blanks.all isBlank = true ∧ text = blanks ++ (token.toList ++ rest) := by
  cases h with
  | cons blanks token hblanks h =>
    cases h
    exact ⟨blanks, hblanks, rfl⟩

/-- What is left behind tokens is no longer than the text. -/
theorem length_le (h : Spaced tokens text rest) : rest.length ≤ text.length := by
  induction h with
  | nil => exact Nat.le_refl _
  | cons blanks token _ _ ih =>
    rw [List.length_append, List.length_append]
    omega

/-- What is left behind a token which is not empty is shorter than the text. -/
theorem length_lt (h : Spaced [token] text rest) (htoken : token ≠ "") :
    rest.length < text.length := by
  obtain ⟨blanks, -, rfl⟩ := h.exists_blanks
  have hlength : 0 < token.toList.length := by
    rw [List.length_pos_iff]
    exact fun hnil => htoken (String.toList_eq_nil_iff.mp hnil)
  rw [List.length_append, List.length_append]
  omega

/-- In front of a token which does not begin with a letter there is no letter. -/
theorem head (h : Spaced (token :: tokens) text rest) (hne : token ≠ "")
    (htoken : ∀ c ∈ token.toList.head?, c.isAlpha = false) :
    ∀ c ∈ text.head?, c.isAlpha = false := by
  cases h with
  | cons blanks _ hblanks _ =>
    cases blanks with
    | nil =>
      cases htext : token.toList with
      | nil => exact absurd (String.toList_eq_nil_iff.mp htext) hne
      | cons c letters =>
        rw [htext] at htoken
        exact htoken
    | cons blank blanks =>
      rw [List.all_cons, Bool.and_eq_true] at hblanks
      rintro c ⟨⟩
      rw [Bool.eq_false_iff]
      intro hletter
      rw [isBlank_of_isAlpha hletter] at hblanks
      cases hblanks.1

end Spaced

/-! ## Single steps -/

/-- A character is read as a token. -/
theorem readChar_eq_ok_iff (htoken : token.toList = [c]) (hc : isBlank c = false) :
    readChar c text = .ok rest ↔ Spaced [token] text rest := by
  constructor
  · intro h
    rw [readChar] at h
    obtain ⟨blanks, hblanks, htext⟩ := exists_skipped text
    split at h
    · cases h
    · next d after hskip =>
      split at h
      · next heq =>
        cases h
        have hspaced := Spaced.singleton blanks token rest hblanks
        rwa [htoken, List.singleton_append, ← heq, ← hskip, ← htext] at hspaced
      · cases h
  · intro h
    obtain ⟨blanks, hblanks, rfl⟩ := h.exists_blanks
    rw [readChar, skipBlanks_append hblanks, htoken, List.singleton_append, skipBlanks_cons hc]
    exact if_pos rfl

/-- A name is read behind blanks as without them. -/
theorem readName_blanks (hblanks : blanks.all isBlank = true) (text : List Char) :
    readName (blanks ++ text) = readName text := by
  rw [readName, readName, skipBlanks_append hblanks]

/-- A token of letters is read as a name, up to the first character which is no letter. -/
theorem readName_of_spaced (h : Spaced [word] text rest) (hword : word ∈ words)
    (hrest : ∀ c ∈ rest.head?, c.isAlpha = false) : readName text = .ok (word, rest) := by
  obtain ⟨blanks, hblanks, rfl⟩ := h.exists_blanks
  rw [readName_blanks hblanks, readName_word hword hrest]

/-- A name is read as a token. -/
theorem spaced_of_readName (h : readName text = .ok (word, rest)) : Spaced [word] text rest := by
  obtain ⟨blanks, hblanks, htext⟩ := exists_skipped text
  have hsplit := List.takeWhile_append_dropWhile (p := Char.isAlpha) (l := skipBlanks text)
  cases hletters : (skipBlanks text).takeWhile Char.isAlpha with
  | nil =>
    simp only [readName, hletters] at h
    cases h
  | cons c letters =>
    simp only [readName, hletters] at h
    cases h
    have hspaced := Spaced.singleton blanks (String.ofList (c :: letters))
      ((skipBlanks text).dropWhile Char.isAlpha) hblanks
    rwa [String.toList_ofList, ← hletters, hsplit, ← htext, hletters] at hspaced

/-- What is read up to a character is read as a token, and the character is another one. -/
theorem spaced_of_readUntil (htoken : token.toList = [c])
    (h : readUntil c text = .ok (content, rest)) :
    Spaced [String.ofList content, token] text (rest.drop 1) := by
  rw [readUntil] at h
  have hsplit := List.takeWhile_append_dropWhile (p := (· ≠ c)) (l := text)
  have hhead := List.head?_dropWhile_not (p := (· ≠ c)) text
  generalize text.takeWhile (· ≠ c) = front at h hsplit
  obtain ⟨left, right, hleft, hright, htrim⟩ := exists_trimmed front
  cases hdrop : text.dropWhile (· ≠ c) with
  | nil =>
    rw [hdrop] at h
    cases h
  | cons d after =>
    rw [hdrop] at h hsplit hhead
    cases h
    have hd : d = c := by simpa using hhead
    have htext : text = left ++ (trim front ++ (right ++ c :: after)) := by
      rw [← hsplit, hd, ← List.append_assoc, ← List.append_assoc, List.append_assoc left, ← htrim]
    have hspaced := (Spaced.cons left (String.ofList (trim front)) hleft
      (.singleton right token after hright))
    rwa [String.toList_ofList, htoken, List.singleton_append, ← htext] at hspaced

/-- A token without blanks is read up to a character which does not occur in it. -/
theorem readUntil_of_spaced (htoken : token.toList = [c]) (hblank : isBlank c = false)
    (hc : c ∉ word.toList) (hword : ∀ d ∈ word.toList, isBlank d = false)
    (h : Spaced [word, token] text rest) :
    readUntil c text = .ok (word.toList, c :: rest) := by
  obtain ⟨middle, hfront, hback⟩ := @Spaced.exists_middle [word] [token] _ _ h
  obtain ⟨left, hleft, rfl⟩ := hfront.exists_blanks
  obtain ⟨right, hright, rfl⟩ := hback.exists_blanks
  rw [htoken, List.singleton_append]
  exact readUntil_blanks hleft hright hblank hc hword rest

/-- A word in front of an opening bracket is read, and so is the bracket. -/
theorem exists_opened (hword : word ∈ words) (h : Spaced (word :: "(" :: tokens) text rest) :
    ∃ afterWord middle, readName text = .ok (word, afterWord) ∧
      readChar '(' afterWord = .ok middle ∧ Spaced tokens middle rest ∧
      middle.length < text.length := by
  obtain ⟨afterWord, hname, hspaced⟩ := @Spaced.exists_middle [word] _ _ _ h
  obtain ⟨middle, hbracket, htokens⟩ := @Spaced.exists_middle ["("] _ _ _ hspaced
  have hread := readName_of_spaced hname hword (hbracket.head (by decide) (by rintro c ⟨⟩; rfl))
  have hless := hbracket.length_lt (by decide)
  have hle := hname.length_le
  exact ⟨afterWord, middle, hread, (readChar_eq_ok_iff rfl (by decide)).mpr hbracket, htokens,
    Nat.lt_of_lt_of_le hless hle⟩

/-! ## Formulas

A formula is read from its tokens, and what is read has the tokens of a formula. -/

/-- Whether a formula is read from its tokens, in front of whatever does not begin with a letter. -/
def ReadsSpaced (formula : Formula) : Prop :=
  ∀ {fuel text rest}, Spaced formula.tokens text rest → text.length < fuel →
    (∀ c ∈ rest.head?, c.isAlpha = false) → compactWithin fuel text = .ok (formula, rest)

/-- Operands and the bracket which closes them do not begin with a letter. -/
theorem head_of_spaced_operands {operands : List Formula}
    (h : Spaced (operandTokens operands ++ [")"]) text rest) :
    ∀ c ∈ text.head?, c.isAlpha = false := by
  cases operands with
  | nil =>
    rw [operandTokens] at h
    exact h.head (by decide) (by rintro c ⟨⟩; rfl)
  | cons operand operands =>
    rw [operandTokens] at h
    exact h.head (by decide) (by rintro c ⟨⟩; rfl)

/-- Operands which are read from their tokens are read one after the other. -/
theorem compactOperandsWithin_of_spaced {operands : List Formula}
    (h : ∀ operand ∈ operands, ReadsSpaced operand) {fuel : Nat}
    (hspaced : Spaced (operandTokens operands ++ [")"]) text rest) (hfuel : text.length < fuel) :
    compactOperandsWithin fuel text = .ok (operands, rest) := by
  induction operands generalizing fuel text with
  | nil =>
    cases fuel with
    | zero => cases hfuel
    | succ fuel =>
      rw [operandTokens] at hspaced
      obtain ⟨blanks, hblanks, rfl⟩ := Spaced.exists_blanks hspaced
      have hskip : skipBlanks (blanks ++ (")".toList ++ rest)) = ')' :: rest := by
        rw [skipBlanks_append hblanks]
        exact skipBlanks_cons (by decide) rest
      rw [compactOperandsWithin, hskip]
      rfl
  | cons operand operands ih =>
    cases fuel with
    | zero => cases hfuel
    | succ fuel =>
      rw [operandTokens, List.cons_append, List.append_assoc] at hspaced
      obtain ⟨afterComma, hcomma, hspaced⟩ := @Spaced.exists_middle [","] _ _ _ hspaced
      obtain ⟨afterOperand, hoperand, hothers⟩ := hspaced.exists_middle
      -- the comma takes one step, so what is left suffices for the operand and for those behind it
      have hless := hcomma.length_lt (by decide)
      have hle := hoperand.length_le
      obtain ⟨blanks, hblanks, rfl⟩ := hcomma.exists_blanks
      have hskip : skipBlanks (blanks ++ (",".toList ++ afterComma)) = ',' :: afterComma := by
        rw [skipBlanks_append hblanks]
        exact skipBlanks_cons (by decide) afterComma
      have hfirst := h operand List.mem_cons_self hoperand (Nat.lt_of_lt_of_le hless
        (Nat.le_of_lt_succ hfuel)) (head_of_spaced_operands hothers)
      have hrest := @ih _ (fun other hother => h other (List.mem_cons_of_mem _ hother)) fuel hothers
        (by omega)
      rw [compactOperandsWithin, hskip]
      simp only [bind, Except.bind, hfirst, hrest]
      rfl

/-- A number is read from its tokens. -/
theorem readsSpaced_number {text : String} (h : isNumberLiteral text = true) :
    ReadsSpaced (.number text) := by
  intro fuel input rest hspaced hfuel _
  cases fuel with
  | zero => cases hfuel
  | succ fuel =>
    rw [tokens] at hspaced
    obtain ⟨afterWord, middle, hword, hopening, hcontent, -⟩ :=
      exists_opened (show "cn" ∈ words by decide) hspaced
    have hclosing : ')' ∉ text.toList := by
      intro hc
      obtain hdigit | hpoint | hminus := mem_of_isNumberLiteral h hc
      · cases hdigit
      · cases hpoint
      · cases hminus
    have huntil : readUntil ')' middle = .ok (text.toList, ')' :: rest) :=
      readUntil_of_spaced rfl (by decide) hclosing (isBlank_of_isNumberLiteral h) hcontent
    rw [compactWithin]
    simp only [bind, Except.bind, hword, hopening, huntil, number_toList h, String.reduceEq,
      ↓reduceIte]
    rfl

/-- An identifier is read from its tokens. -/
theorem readsSpaced_identifier {letter : Char} (h : isAlphabetic letter = true) :
    ReadsSpaced (.identifier letter) := by
  intro fuel input rest hspaced hfuel _
  cases fuel with
  | zero => cases hfuel
  | succ fuel =>
    rw [tokens] at hspaced
    obtain ⟨afterWord, middle, hword, hopening, hcontent, -⟩ :=
      exists_opened (show "ci" ∈ words by decide) hspaced
    have hletter : letter.toString.toList = [letter] := String.toList_singleton letter
    have hclosing : ')' ∉ letter.toString.toList := by
      rw [hletter, List.mem_singleton]
      exact (ne_of_isAlphabetic h (by decide)).symm
    have hblank : ∀ c ∈ letter.toString.toList, isBlank c = false := by
      rw [hletter]
      exact List.forall_mem_singleton.mpr (isBlank_of_isAlphabetic h)
    have huntil : readUntil ')' middle = .ok (letter.toString.toList, ')' :: rest) :=
      readUntil_of_spaced rfl (by decide) hclosing hblank hcontent
    rw [hletter] at huntil
    rw [compactWithin]
    simp only [bind, Except.bind, hword, hopening, huntil, identifier_singleton h, String.reduceEq,
      ↓reduceIte]
    rfl

/-- A constant is read from its token. -/
theorem readsSpaced_constant (name : Constant) : ReadsSpaced (.constant name) := by
  intro fuel input rest hspaced hfuel hrest
  cases fuel with
  | zero => cases hfuel
  | succ fuel =>
    rw [tokens] at hspaced
    have hword := readName_of_spaced hspaced (constant_tag_mem_words name) hrest
    have hother : name.tag ≠ "apply" ∧ name.tag ≠ "cn" ∧ name.tag ≠ "ci" ∧
        name.tag ≠ "degree" := by
      cases name <;> decide
    rw [compactWithin]
    simp only [bind, Except.bind, hword, hother, ↓reduceIte, Constant.ofTag?_tag]
    rfl

/-- A degree is read from its tokens if its value is read from its own. -/
theorem readsSpaced_degree {value : Formula} (h : ReadsSpaced value) :
    ReadsSpaced (.degree value) := by
  intro fuel input rest hspaced hfuel _
  cases fuel with
  | zero => cases hfuel
  | succ fuel =>
    rw [tokens] at hspaced
    obtain ⟨afterWord, middle, hword, hopening, hspaced, hless⟩ :=
      exists_opened (show "degree" ∈ words by decide) hspaced
    obtain ⟨afterValue, hvalue, hbracket⟩ := hspaced.exists_middle
    have hread : compactWithin fuel middle = .ok (value, afterValue) :=
      h hvalue (by omega) (hbracket.head (by decide) (by rintro c ⟨⟩; rfl))
    have hclosing : readChar ')' afterValue = .ok rest :=
      (readChar_eq_ok_iff rfl (by decide)).mpr hbracket
    rw [compactWithin]
    simp only [bind, Except.bind, hword, hopening, hread, hclosing, String.reduceEq, ↓reduceIte]
    rfl

/-- An application is read from its tokens if its operands are read from theirs. -/
theorem readsSpaced_apply (op : Operator) {operands : List Formula}
    (h : ∀ operand ∈ operands, ReadsSpaced operand) : ReadsSpaced (.apply op operands) := by
  intro fuel input rest hspaced hfuel _
  cases fuel with
  | zero => cases hfuel
  | succ fuel =>
    rw [tokens] at hspaced
    obtain ⟨afterWord, middle, hword, hopening, hspaced, hless⟩ :=
      exists_opened (show "apply" ∈ words by decide) hspaced
    obtain ⟨afterTag, htag, hoperands⟩ := @Spaced.exists_middle [op.tag] _ _ _ hspaced
    have hop := readName_of_spaced htag (tag_mem_words op) (head_of_spaced_operands hoperands)
    have hle := htag.length_le
    have hread : compactOperandsWithin fuel afterTag = .ok (operands, rest) :=
      compactOperandsWithin_of_spaced h hoperands (by omega)
    rw [compactWithin]
    simp only [bind, Except.bind, hword, hopening, hop, operator_tag, hread, ↓reduceIte]
    rfl

/-- A formula which is spelled properly is read from its tokens. -/
theorem readsSpaced {formula : Formula} (h : formula.Spelled) : ReadsSpaced formula := by
  induction h with
  | number h => exact readsSpaced_number h
  | identifier h => exact readsSpaced_identifier h
  | constant name => exact readsSpaced_constant name
  | degree _ ih => exact readsSpaced_degree ih
  | apply op _ ih => exact readsSpaced_apply op ih

/-! ## What has been read -/

/-- With so much fuel, what is read in compact form is spelled properly and has the tokens of the
formula which is read, and operands which are read have theirs, up to the bracket which closes them.
-/
structure CompactSound (fuel : Nat) : Prop where
  formula : ∀ {text rest formula}, compactWithin fuel text = .ok (formula, rest) →
    formula.Spelled ∧ Spaced formula.tokens text rest
  operands : ∀ {text rest operands}, compactOperandsWithin fuel text = .ok (operands, rest) →
    (∀ operand ∈ operands, Formula.Spelled operand) ∧
      Spaced (operandTokens operands ++ [")"]) text rest

/-- A name and the opening bracket behind it are read as tokens. -/
theorem spaced_opened {afterWord : List Char} (hword : readName text = .ok (word, afterWord))
    (hbracket : readChar '(' afterWord = .ok middle) : Spaced [word, "("] text middle :=
  (spaced_of_readName hword).append ((readChar_eq_ok_iff rfl (by decide)).mp hbracket)

/-- With one more round of fuel a formula is still read from its tokens only. -/
theorem CompactSound.formula_succ {fuel : Nat} (ih : CompactSound fuel) {formula : Formula}
    (h : compactWithin (fuel + 1) text = .ok (formula, rest)) :
    formula.Spelled ∧ Spaced formula.tokens text rest := by
  rw [compactWithin] at h
  obtain ⟨⟨word, afterWord⟩, hword, h⟩ := exists_of_bind h
  dsimp only at h
  split at h
  · next happly =>
    obtain ⟨afterBracket, hbracket, h⟩ := exists_of_bind h
    obtain ⟨⟨name, afterName⟩, hname, h⟩ := exists_of_bind h
    obtain ⟨op, hop, h⟩ := exists_of_bind h
    obtain ⟨⟨operands, afterOperands⟩, hoperands, h⟩ := exists_of_bind h
    cases h
    obtain ⟨hspelled, hspaced⟩ := ih.operands hoperands
    have hopened := spaced_opened hword hbracket
    have htag := spaced_of_readName hname
    have heq : name = op.tag := eq_tag_of_operator hop
    rw [happly] at hopened
    rw [heq] at htag
    rw [tokens]
    exact ⟨.apply op hspelled, hopened.append (htag.append hspaced)⟩
  split at h
  · next hcn =>
    obtain ⟨afterBracket, hbracket, h⟩ := exists_of_bind h
    obtain ⟨⟨content, afterContent⟩, hcontent, h⟩ := exists_of_bind h
    obtain ⟨found, hnumber, h⟩ := exists_of_bind h
    cases h
    obtain ⟨hliteral, rfl⟩ := literal_of_number hnumber
    have hopened := spaced_opened hword hbracket
    rw [hcn] at hopened
    rw [tokens]
    exact ⟨.number hliteral, hopened.append (spaced_of_readUntil rfl hcontent)⟩
  split at h
  · next hci =>
    obtain ⟨afterBracket, hbracket, h⟩ := exists_of_bind h
    obtain ⟨⟨content, afterContent⟩, hcontent, h⟩ := exists_of_bind h
    obtain ⟨found, hidentifier, h⟩ := exists_of_bind h
    cases h
    obtain ⟨letter, hletter, rfl, rfl⟩ := letter_of_identifier hidentifier
    have hopened := spaced_opened hword hbracket
    rw [hci] at hopened
    rw [tokens]
    exact ⟨.identifier hletter, hopened.append (spaced_of_readUntil rfl hcontent)⟩
  split at h
  · next hdegree =>
    obtain ⟨afterBracket, hbracket, h⟩ := exists_of_bind h
    obtain ⟨⟨value, afterValue⟩, hvalue, h⟩ := exists_of_bind h
    obtain ⟨afterClosing, hclosing, h⟩ := exists_of_bind h
    cases h
    obtain ⟨hspelled, hspaced⟩ := ih.formula hvalue
    have hopened := spaced_opened hword hbracket
    have hclosed : Spaced [")"] afterValue rest :=
      (readChar_eq_ok_iff rfl (by decide)).mp hclosing
    rw [hdegree] at hopened
    rw [tokens]
    exact ⟨.degree hspelled, hopened.append (hspaced.append hclosed)⟩
  split at h
  · next constant hconstant =>
    cases h
    rw [tokens, ← eq_tag_of_constant hconstant]
    exact ⟨.constant constant, spaced_of_readName hword⟩
  · cases h

/-- With one more round of fuel operands are still read from their tokens only. -/
theorem CompactSound.operands_succ {fuel : Nat} (ih : CompactSound fuel) {operands : List Formula}
    (h : compactOperandsWithin (fuel + 1) text = .ok (operands, rest)) :
    (∀ operand ∈ operands, operand.Spelled) ∧
      Spaced (operandTokens operands ++ [")"]) text rest := by
  obtain ⟨blanks, hblanks, htext⟩ := exists_skipped text
  rw [compactOperandsWithin] at h
  split at h
  · next afterComma hskip =>
    obtain ⟨⟨operand, afterOperand⟩, hoperand, h⟩ := exists_of_bind h
    obtain ⟨⟨others, afterOthers⟩, hothers, h⟩ := exists_of_bind h
    cases h
    obtain ⟨hspelled, hspaced⟩ := ih.formula hoperand
    obtain ⟨hspelled', hspaced'⟩ := ih.operands hothers
    rw [htext, hskip, operandTokens, List.cons_append, List.append_assoc]
    exact ⟨List.forall_mem_cons.mpr ⟨hspelled, hspelled'⟩,
      .cons blanks "," hblanks (hspaced.append hspaced')⟩
  · next afterClosing hskip =>
    cases h
    rw [htext, hskip, operandTokens]
    exact ⟨List.forall_mem_nil _, .singleton blanks ")" rest hblanks⟩
  · cases h

/-- The two readers call each other with less fuel. -/
theorem compactSound (fuel : Nat) : CompactSound fuel := by
  induction fuel with
  | zero =>
    constructor
    · intro text rest formula h
      rw [compactWithin] at h
      cases h
    · intro text rest operands h
      rw [compactOperandsWithin] at h
      cases h
  | succ fuel ih => exact ⟨ih.formula_succ, ih.operands_succ⟩

/-! ## Texts -/

/-- The tokens of a formula begin with a known word. -/
theorem exists_word_of_tokens (formula : Formula) :
    ∃ word tokens, formula.tokens = word :: tokens ∧ word ∈ words := by
  cases formula with
  | number text => exact ⟨"cn", _, by rw [tokens], by decide⟩
  | identifier letter => exact ⟨"ci", _, by rw [tokens], by decide⟩
  | constant name => exact ⟨name.tag, _, by rw [tokens], constant_tag_mem_words name⟩
  | degree value => exact ⟨"degree", _, by rw [tokens], by decide⟩
  | apply op operands => exact ⟨"apply", _, by rw [tokens], by decide⟩

/-- The tokens of a formula begin with a letter. -/
theorem head_skipBlanks_ne_of_spaced {formula : Formula} (h : Spaced formula.tokens text rest) :
    (skipBlanks text).head? ≠ some '<' := by
  obtain ⟨word, others, htokens, hword⟩ := exists_word_of_tokens formula
  obtain ⟨hne, hletters⟩ := letters_of_mem_words hword
  rw [htokens] at h
  cases h with
  | @cons blanks _ _ after _ hblanks h =>
    cases htext : word.toList with
    | nil => exact absurd (String.toList_eq_nil_iff.mp htext) hne
    | cons c letters =>
      rw [htext, List.all_cons, Bool.and_eq_true] at hletters
      rw [skipBlanks_append hblanks, List.cons_append,
        skipBlanks_cons (isBlank_of_isAlpha hletters.1)]
      rintro ⟨⟩
      cases hletters.1

end Reading

namespace Formula

open Text Reading

/-- A text writes a formula in compact form: it has the tokens of the formula, with any blanks in
front of each of them and at the end. -/
def WrittenBy (formula : Formula) (text : List Char) : Prop :=
  ∃ blanks, blanks.all isBlank = true ∧ Spaced formula.tokens text blanks

variable {formula : Formula} {text : List Char}

/-- A formula which is spelled properly is read from every text which writes it. -/
theorem WrittenBy.readForm_eq (h : formula.WrittenBy text) (hspelled : formula.Spelled) :
    readForm text = .ok formula := by
  obtain ⟨blanks, hblanks, hspaced⟩ := h
  have hend : ∀ c ∈ blanks.head?, c.isAlpha = false := by
    intro c hc
    rw [Bool.eq_false_iff]
    intro hletter
    have hblank := List.all_eq_true.mp hblanks c (List.mem_of_mem_head? hc)
    rw [isBlank_of_isAlpha hletter] at hblank
    cases hblank
  have hread : Reading.compact text = .ok (formula, blanks) :=
    readsSpaced hspelled hspaced (Nat.lt_succ_self _) hend
  rw [readForm, if_neg (head_skipBlanks_ne_of_spaced hspaced), hread]
  simp only [bind, Except.bind, skipBlanks_eq_nil_iff.mpr hblanks]
  rfl

/-- What is read from a text in compact form is spelled properly, and the text writes it. -/
theorem writtenBy_of_readForm (hform : (skipBlanks text).head? ≠ some '<')
    (h : readForm text = .ok formula) : formula.Spelled ∧ formula.WrittenBy text := by
  rw [readForm, if_neg hform] at h
  obtain ⟨⟨value, rest⟩, hvalue, h⟩ := exists_of_bind h
  dsimp only at h
  split at h
  · next hskip =>
    cases h
    obtain ⟨hspelled, hspaced⟩ := (compactSound _).formula hvalue
    exact ⟨hspelled, rest, skipBlanks_eq_nil_iff.mp hskip, hspaced⟩
  · cases h

/-- The compact text of a formula has its tokens, with a blank behind each comma. -/
theorem spaced_compactThen (formula : Formula) (rest : List Char) :
    Spaced formula.tokens (compactThen formula rest) rest := by
  induction formula using inductionOn generalizing rest with
  | number text =>
    show Spaced ["cn", "(", text, ")"]
      ("cn".toList ++ ("(".toList ++ (text.toList ++ (")".toList ++ rest)))) rest
    exact .cons [] "cn" rfl (.cons [] "(" rfl (.cons [] text rfl (.singleton [] ")" rest rfl)))
  | identifier letter =>
    have hletter : letter.toString.toList = [letter] := String.toList_singleton letter
    have hcontent := Spaced.cons [] letter.toString rfl (.singleton [] ")" rest rfl)
    rw [hletter] at hcontent
    show Spaced ["ci", "(", letter.toString, ")"]
      ("ci".toList ++ ("(".toList ++ ([letter] ++ (")".toList ++ rest)))) rest
    exact .cons [] "ci" rfl (.cons [] "(" rfl hcontent)
  | constant name => exact .singleton [] name.tag rest rfl
  | degree value ih =>
    have hvalue := (ih (')' :: rest)).append (.singleton [] ")" rest rfl)
    exact .cons [] "degree" rfl (.cons [] "(" rfl hvalue)
  | apply op operands ih =>
    have hoperands : ∀ rest, Spaced (operandTokens operands) (compactOperandsThen operands rest)
        rest := by
      intro rest
      induction operands with
      | nil => exact .nil rest
      | cons operand operands ihOperands =>
        have hothers := ihOperands fun other hother => ih other (List.mem_cons_of_mem _ hother)
        have hoperand := (ih operand List.mem_cons_self (compactOperandsThen operands rest)).append
          hothers
        obtain ⟨word, others, htokens, -⟩ := exists_word_of_tokens operand
        rw [htokens] at hoperand
        rw [operandTokens, htokens]
        exact .cons [] "," rfl (hoperand.blank rfl)
    have hclosing := (hoperands (')' :: rest)).append (.singleton [] ")" rest rfl)
    exact .cons [] "apply" rfl (.cons [] "(" rfl (.cons [] op.tag rfl hclosing))

/-- The compact form of a formula is one of the ways to write it. -/
theorem writtenBy_compact (formula : Formula) : formula.WrittenBy formula.compact.toList := by
  rw [compact, String.toList_ofList]
  exact ⟨[], rfl, spaced_compactThen formula []⟩

/-- A formula which is spelled properly and passes the check is what its compact text denotes. -/
theorem ofText_compact (h : formula.Spelled) (hcheck : formula.check = .ok ()) :
    ofText formula.compact = .ok formula :=
  ofText_eq_ok_iff.mpr ⟨formula.writtenBy_compact.readForm_eq h, hcheck⟩

end Formula

end FormulaEditor
