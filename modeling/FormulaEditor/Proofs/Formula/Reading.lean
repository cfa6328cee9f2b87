import FormulaEditor.Formula.Reading
import FormulaEditor.Proofs.Formula.Literal
import FormulaEditor.Proofs.Formula.Normal
import FormulaEditor.Proofs.Text.Letters

/-!
# Single steps of reading

A formula is spelled properly if its numbers are literals and its identifiers are letters
(`Formula.Spelled`), and nothing else is read by a number or an identifier. Here is what the single
steps of reading make of a text which begins with what they look for. The words which may be looked
for are those which stand in front of values (`Reading.words`).
-/

set_option autoImplicit false

namespace FormulaEditor

/-- Numbers are literals and identifiers are letters, in all of a formula. -/
inductive Formula.Spelled : Formula → Prop
  | number {text : String} (h : isNumberLiteral text = true) : Spelled (.number text)
  | identifier {letter : Char} (h : Text.isAlphabetic letter = true) : Spelled (.identifier letter)
  | constant (name : Constant) : Spelled (.constant name)
  | degree {value : Formula} (h : Spelled value) : Spelled (.degree value)
  | apply (op : Operator) {operands : List Formula} (h : ∀ operand ∈ operands, Spelled operand) :
      Spelled (.apply op operands)

/-- The characters of a literal are digits, points and minus signs. -/
theorem mem_of_isNumberLiteral {text : String} (h : isNumberLiteral text = true) {c : Char}
    (hc : c ∈ text.toList) : c.isDigit = true ∨ c = '.' ∨ c = '-' := by
  rw [isNumberLiteral] at h
  by_cases hsign : text.toList.head? = some '-'
  · obtain ⟨digits, hdigits⟩ := List.head?_eq_some_iff.mp hsign
    rw [hdigits] at h hc
    obtain rfl | hc := List.mem_cons.mp hc
    · exact .inr (.inr rfl)
    · obtain hdigit | hpoint := Literal.isDigit_or_point h hc
      · exact .inl hdigit
      · exact .inr (.inl hpoint)
  · rw [Literal.dropSign_eq_self hsign] at h
    obtain hdigit | hpoint := Literal.isDigit_or_point h hc
    · exact .inl hdigit
    · exact .inr (.inl hpoint)

namespace Reading

open Text

/-! ## Steps which succeed -/

/-- A character is read behind blanks. -/
theorem readChar_append {c : Char} {blanks : List Char} (hblanks : blanks.all isBlank = true)
    (h : isBlank c = false) (text : List Char) : readChar c (blanks ++ c :: text) = .ok text := by
  rw [readChar, skipBlanks_append hblanks, skipBlanks_cons h]
  exact if_pos rfl

/-- No ASCII letter is blank. -/
theorem isBlank_of_isAlpha {c : Char} (h : c.isAlpha = true) : isBlank c = false :=
  isBlank_of_isAlphabetic (isAlphabetic_of_isAlpha h)

/-- A word in front is read up to the first character which is no letter. -/
theorem readName_append {word : String} (hne : word ≠ "")
    (hword : ∀ c ∈ word.toList, c.isAlpha = true) {rest : List Char}
    (hrest : ∀ c ∈ rest.head?, c.isAlpha = false) :
    readName (word.toList ++ rest) = .ok (word, rest) := by
  have hstop : rest.takeWhile Char.isAlpha = [] ∧ rest.dropWhile Char.isAlpha = rest := by
    cases rest with
    | nil => exact ⟨rfl, rfl⟩
    | cons c rest =>
      have hc := hrest c rfl
      simp [hc]
  have htake : (word.toList ++ rest).takeWhile Char.isAlpha = word.toList := by
    rw [List.takeWhile_append_of_pos hword, hstop.1, List.append_nil]
  have hdrop : (word.toList ++ rest).dropWhile Char.isAlpha = rest := by
    rw [List.dropWhile_append_of_pos hword, hstop.2]
  cases hletters : word.toList with
  | nil =>
    rw [← String.ofList_toList (s := word), hletters] at hne
    exact absurd rfl hne
  | cons c letters =>
    have hskip : skipBlanks (c :: letters ++ rest) = c :: letters ++ rest := by
      refine skipBlanks_cons (isBlank_of_isAlpha (hword c ?_)) _
      rw [hletters]
      exact List.mem_cons_self
    have hofList : String.ofList (c :: letters) = word := by rw [← hletters, String.ofList_toList]
    rw [hletters] at htake hdrop
    rw [readName, hskip, htake, hdrop]
    show Except.ok (String.ofList (c :: letters), rest) = _
    rw [hofList]

/-- A text is read up to a character which does not occur in it, and trimmed. -/
theorem readUntil_append {c : Char} {text : List Char} (hc : c ∉ text) (rest : List Char) :
    readUntil c (text ++ c :: rest) = .ok (trim text, c :: rest) := by
  have hne : ∀ d ∈ text, decide (d ≠ c) = true := by
    intro d hd
    rw [decide_eq_true_eq]
    rintro rfl
    exact hc hd
  have hdrop : (text ++ c :: rest).dropWhile (· ≠ c) = c :: rest := by
    rw [List.dropWhile_append_of_pos hne]
    simp
  have htake : (text ++ c :: rest).takeWhile (· ≠ c) = text := by
    rw [List.takeWhile_append_of_pos hne]
    simp
  rw [readUntil, hdrop, htake]

/-- A text without blanks is read up to a character which does not occur in it, and blanks around it
are dropped. -/
theorem readUntil_blanks {c : Char} {left text right : List Char}
    (hleft : left.all isBlank = true) (hright : right.all isBlank = true)
    (hblank : isBlank c = false) (hc : c ∉ text) (htext : ∀ d ∈ text, isBlank d = false)
    (rest : List Char) :
    readUntil c (left ++ (text ++ (right ++ c :: rest))) = .ok (text, c :: rest) := by
  have hnotMem : c ∉ left ++ (text ++ right) := by
    intro hmem
    rw [List.mem_append, List.mem_append] at hmem
    obtain hmem | hmem | hmem := hmem
    · exact absurd (List.all_eq_true.mp hleft c hmem) (by simp [hblank])
    · exact hc hmem
    · exact absurd (List.all_eq_true.mp hright c hmem) (by simp [hblank])
  have hsplit : left ++ (text ++ (right ++ c :: rest)) =
      (left ++ (text ++ right)) ++ c :: rest := by
    rw [List.append_assoc, List.append_assoc]
  rw [hsplit, readUntil_append hnotMem, trim_append hleft hright htext]

/-- The tags of operators and constants, and the words in front of other values, are words. -/
def words : List String :=
  ["apply", "cn", "ci", "degree"] ++ Operator.all.map (·.tag) ++ Constant.all.map (·.tag)

/-- Words are made of letters. -/
theorem letters_of_mem_words {word : String} (h : word ∈ words) :
    word ≠ "" ∧ word.toList.all Char.isAlpha = true := by
  have hwords : ∀ word ∈ words, word ≠ "" ∧ word.toList.all Char.isAlpha = true := by decide
  exact hwords word h

/-- A word in front of what is no letter is read. -/
theorem readName_word {word : String} (h : word ∈ words) {rest : List Char}
    (hrest : ∀ c ∈ rest.head?, c.isAlpha = false) :
    readName (word.toList ++ rest) = .ok (word, rest) := by
  obtain ⟨hne, hletters⟩ := letters_of_mem_words h
  exact readName_append hne (List.all_eq_true.mp hletters) hrest

/-- The tag of an operator is one of the known words. -/
theorem tag_mem_words (op : Operator) : op.tag ∈ words := by
  cases op <;> decide

/-- The tag of a constant is one of the known words. -/
theorem constant_tag_mem_words (name : Constant) : name.tag ∈ words := by
  cases name <;> decide

/-- An operator is recognized by its tag. -/
theorem operator_tag (op : Operator) (rest : List Char) : operator op.tag rest = .ok op := by
  rw [operator, Operator.ofTag?_tag]

/-- A numeric literal is read as the number with this text. -/
theorem number_toList {text : String} (h : isNumberLiteral text = true) :
    number text.toList = .ok (.number text) := by
  rw [number, String.ofList_toList, if_pos h]

/-- A single letter is read as the identifier with this letter. -/
theorem identifier_singleton {letter : Char} (h : isAlphabetic letter = true) :
    identifier [letter] = .ok (.identifier letter) := by
  rw [identifier]
  exact if_pos h

/-- There are no blanks in a numeric literal. -/
theorem isBlank_of_isNumberLiteral {text : String} (h : isNumberLiteral text = true) :
    ∀ c ∈ text.toList, isBlank c = false := by
  intro c hc
  obtain hdigit | rfl | rfl := mem_of_isNumberLiteral h hc
  · exact isBlank_of_isDigit hdigit
  · decide
  · decide

/-! ## What a step has read -/

/-- Where two steps succeed one after the other, each of them succeeds. -/
theorem exists_of_bind {ε α β : Type} {first : Except ε α} {next : α → Except ε β} {b : β}
    (h : (first >>= next) = .ok b) : ∃ a, first = .ok a ∧ next a = .ok b := by
  cases first with
  | error e => cases h
  | ok a => exact ⟨a, rfl, h⟩

/-- A number is read from a literal. -/
theorem literal_of_number {text : List Char} {formula : Formula}
    (h : number text = .ok formula) :
    isNumberLiteral (String.ofList text) = true ∧ formula = .number (String.ofList text) := by
  rw [number] at h
  split at h
  · next hliteral =>
    cases h
    exact ⟨hliteral, rfl⟩
  · cases h

/-- An identifier is read from one letter. -/
theorem letter_of_identifier {text : List Char} {formula : Formula}
    (h : identifier text = .ok formula) :
    ∃ letter, isAlphabetic letter = true ∧ text = [letter] ∧ formula = .identifier letter := by
  cases text with
  | nil => cases h
  | cons letter letters =>
    cases letters with
    | cons _ _ => cases h
    | nil =>
      simp only [identifier] at h
      split at h
      · next hletter =>
        cases h
        exact ⟨letter, hletter, rfl, rfl⟩
      · cases h

/-- What is read as a number is spelled properly. -/
theorem spelled_of_number {text : List Char} {formula : Formula}
    (h : number text = .ok formula) : formula.Spelled := by
  obtain ⟨hliteral, rfl⟩ := literal_of_number h
  exact .number hliteral

/-- What is read as an identifier is spelled properly. -/
theorem spelled_of_identifier {text : List Char} {formula : Formula}
    (h : identifier text = .ok formula) : formula.Spelled := by
  obtain ⟨letter, hletter, -, rfl⟩ := letter_of_identifier h
  exact .identifier hletter

/-- An operator is read from its tag. -/
theorem eq_tag_of_operator {name : String} {rest : List Char} {op : Operator}
    (h : operator name rest = .ok op) : name = op.tag := by
  rw [operator] at h
  split at h
  · next hfound =>
    cases h
    have htag := List.find?_some hfound
    exact (beq_iff_eq.mp htag).symm
  · cases h

/-- The text which is recognized as a constant is the tag of the constant. -/
theorem eq_tag_of_constant {name : String} {constant : Constant}
    (h : Constant.ofTag? name = some constant) : name = constant.tag := by
  have htag := List.find?_some h
  exact (beq_iff_eq.mp htag).symm

end Reading

namespace Formula

/-- A text denotes the formula which is read from it, if that passes the check. -/
theorem ofText_eq_ok_iff {text : String} {formula : Formula} :
    ofText text = .ok formula ↔
      readForm text.toList = .ok formula ∧ formula.check = .ok () := by
  rw [ofText]
  constructor
  · intro h
    split at h
    · cases h
    · next value hread =>
      split at h
      · cases h
      · next hcheck =>
        cases h
        exact ⟨hread, hcheck⟩
  · rintro ⟨hread, hcheck⟩
    simp only [hread, hcheck]

/-- A text which denotes nothing is refused as a value. -/
theorem invalidValue_of_ofText {text : String} {error : Error} (h : ofText text = .error error) :
    ∃ fault, error = .invalidValue fault := by
  unfold ofText at h
  split at h
  · cases h
    exact ⟨_, rfl⟩
  · split at h
    · cases h
      exact ⟨_, rfl⟩
    · cases h

end Formula

end FormulaEditor
