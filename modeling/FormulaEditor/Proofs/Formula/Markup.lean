import FormulaEditor.Formula.MathML
import FormulaEditor.Proofs.Formula.Reading

/-!
# Content MathML with blanks and attributes

The content MathML of a formula is a sequence of tags, with the texts of numbers and identifiers in
between (`Formula.markupThen`). Blanks may be put in front of each tag and around each text, and
attributes into all tags but closing ones (`Markup.Begins`, `Markup.Laid`); without any of them the
text is the one which is written for the formula (`Formula.foldr_markupThen`). A formula which is
spelled properly is read from its tags and texts however they are laid out, and nothing of what
follows them is used up (`Reading.readsLaid`). This is not changed by a `math` element around them
(`Formula.MarkedUpBy.readForm_eq`).
-/

set_option autoImplicit false

namespace FormulaEditor

open Text

/-- A tag, or the text between two tags. -/
inductive Markup
  /-- The opening tag of an element with content. -/
  | opening (name : String)
  | closing (name : String)
  /-- The tag of an element without content. -/
  | empty (name : String)
  | content (text : String)
  deriving DecidableEq, Repr

namespace Markup

open Formula (openingThen closingThen emptyElementThen)

/-- What is written for a piece of markup, in front of the rest of a text. -/
def plainThen : Markup → List Char → List Char
  | opening name, rest => openingThen name rest
  | closing name, rest => closingThen name rest
  | empty name, rest => emptyElementThen name rest
  | content text, rest => text.toList ++ rest

/-- What may stand in a tag behind its name: nothing, or something which begins with a blank and
does not end the tag. -/
def Attributes (text : List Char) : Prop :=
  text.head?.all isBlank = true ∧ '>' ∉ text

/-- Whether a text may be the attributes of a tag can be decided. -/
instance (text : List Char) : Decidable (Attributes text) :=
  inferInstanceAs (Decidable (_ ∧ _))

/-- A text begins with a piece of markup and goes on with a rest. There may be blanks in front of a
tag and around the text between two tags, and attributes in a tag which is no closing tag. Those of
an opening tag do not end with a slash, whatever blanks are behind it. -/
inductive Begins : Markup → List Char → List Char → Prop
  | opening (name : String) {blanks attributes : List Char} (rest : List Char)
      (hblanks : blanks.all isBlank = true) (hattributes : Attributes attributes)
      (hslash : (trim attributes).getLast? ≠ some '/') :
      Begins (.opening name) (blanks ++ '<' :: (name.toList ++ (attributes ++ '>' :: rest))) rest
  | closing (name : String) {blanks : List Char} (rest : List Char)
      (hblanks : blanks.all isBlank = true) :
      Begins (.closing name) (blanks ++ closingThen name rest) rest
  | empty (name : String) {blanks attributes : List Char} (rest : List Char)
      (hblanks : blanks.all isBlank = true) (hattributes : Attributes attributes) :
      Begins (.empty name) (blanks ++ '<' :: (name.toList ++ (attributes ++ '/' :: '>' :: rest)))
        rest
  | content (text : String) {left right : List Char} (rest : List Char)
      (hleft : left.all isBlank = true) (hright : right.all isBlank = true) :
      Begins (.content text) (left ++ (text.toList ++ (right ++ rest))) rest

/-- A text begins with pieces of markup, laid out one after the other, and goes on with a rest. -/
inductive Laid : List Markup → List Char → List Char → Prop
  | nil (rest : List Char) : Laid [] rest rest
  | cons {piece : Markup} {pieces : List Markup} {text middle rest : List Char}
      (hpiece : Begins piece text middle) (h : Laid pieces middle rest) :
      Laid (piece :: pieces) text rest

variable {piece : Markup} {pieces : List Markup} {text rest : List Char}

/-- A text has several pieces of markup if it begins with the first one and goes on with the others.
-/
theorem laid_cons :
    Laid (piece :: pieces) text rest ↔
      ∃ middle, Begins piece text middle ∧ Laid pieces middle rest := by
  constructor
  · rintro ⟨⟩
    exact ⟨_, ‹_›, ‹_›⟩
  · rintro ⟨middle, hpiece, h⟩
    exact .cons hpiece h

/-- A tag needs no attributes. -/
theorem attributes_nil : Attributes [] :=
  ⟨rfl, List.not_mem_nil⟩

/-- A piece of markup begins with itself. -/
theorem begins_plainThen (piece : Markup) (rest : List Char) :
    Begins piece (piece.plainThen rest) rest := by
  cases piece with
  | opening name => exact @Begins.opening name [] [] rest rfl attributes_nil nofun
  | closing name => exact @Begins.closing name [] rest rfl
  | empty name => exact @Begins.empty name [] [] rest rfl attributes_nil
  | content text => exact @Begins.content text [] [] rest rfl rfl

/-- Pieces of markup which are written one after the other are laid out. -/
theorem laid_plainThen (pieces : List Markup) (rest : List Char) :
    Laid pieces (pieces.foldr plainThen rest) rest := by
  induction pieces with
  | nil => exact .nil rest
  | cons piece pieces ih => exact .cons (begins_plainThen piece _) ih

/-- What is left behind a piece of markup is no longer than the text. -/
theorem Begins.length_le (h : Begins piece text rest) : rest.length ≤ text.length := by
  cases h <;> simp only [closingThen, List.length_append, List.length_cons] <;> omega

/-- A tag takes at least one character. -/
theorem Begins.length_lt (h : Begins piece text rest) (htag : ∀ text, piece ≠ .content text) :
    rest.length < text.length := by
  cases h with
  | content text => exact absurd rfl (htag text)
  | opening | closing | empty =>
    simp only [closingThen, List.length_append, List.length_cons]
    omega

end Markup

namespace Formula

open Markup

mutual

/-- The tags and texts of the content MathML of a formula, in front of others. -/
def markupThen : Formula → List Markup → List Markup
  | .number text, pieces => .opening "cn" :: .content text :: .closing "cn" :: pieces
  | .identifier letter, pieces =>
    .opening "ci" :: .content letter.toString :: .closing "ci" :: pieces
  | .constant name, pieces => .empty name.tag :: pieces
  | .degree value, pieces => .opening "degree" :: markupThen value (.closing "degree" :: pieces)
  | .apply op operands, pieces =>
    .opening "apply" :: .empty op.tag :: operandMarkupThen operands (.closing "apply" :: pieces)

/-- The tags and texts of the content MathML of a list of operands, in front of others. -/
def operandMarkupThen : List Formula → List Markup → List Markup
  | [], pieces => pieces
  | operand :: operands, pieces => markupThen operand (operandMarkupThen operands pieces)

end

/-- The content MathML of a formula is its tags and texts, one after the other. -/
theorem foldr_markupThen (formula : Formula) (pieces : List Markup) (rest : List Char) :
    (formula.markupThen pieces).foldr plainThen rest =
      formula.mathmlThen (pieces.foldr plainThen rest) := by
  induction formula using inductionOn generalizing pieces with
  | number text => rfl
  | identifier letter =>
    have hletter : letter.toString.toList = [letter] := String.toList_singleton letter
    show openingThen "ci" (letter.toString.toList ++ _) = _
    rw [hletter]
    rfl
  | constant name => rfl
  | degree value ih =>
    show openingThen "degree" ((value.markupThen (.closing "degree" :: pieces)).foldr plainThen
      rest) = _
    rw [ih]
    rfl
  | apply op operands ih =>
    have hoperands : ∀ pieces, (operandMarkupThen operands pieces).foldr plainThen rest =
        mathmlOperandsThen operands (pieces.foldr plainThen rest) := by
      intro pieces
      induction operands with
      | nil => rfl
      | cons operand operands ihOperands =>
        show (operand.markupThen (operandMarkupThen operands pieces)).foldr plainThen rest = _
        rw [ih operand List.mem_cons_self,
          ihOperands fun other hother => ih other (List.mem_cons_of_mem _ hother)]
        rfl
    show openingThen "apply" (emptyElementThen op.tag
      ((operandMarkupThen operands (.closing "apply" :: pieces)).foldr plainThen rest)) = _
    rw [hoperands]
    rfl

/-- A text marks a formula up: it has the tags and texts of the formula, alone or in a `math`
element, laid out in any way, and nothing but blanks behind them. -/
inductive MarkedUpBy (formula : Formula) (text : List Char) : Prop
  | alone {blanks : List Char} (hblanks : blanks.all isBlank = true)
      (h : Laid (formula.markupThen []) text blanks)
  | inMath {blanks : List Char} (hblanks : blanks.all isBlank = true)
      (h : Laid (.opening "math" :: formula.markupThen [.closing "math"]) text blanks)

/-- The content MathML of a formula is its tags and texts with nothing behind them. -/
theorem toList_mathml (formula : Formula) :
    formula.mathml.toList = (formula.markupThen []).foldr plainThen [] := by
  rw [foldr_markupThen, mathml, String.toList_ofList]
  rfl

/-- The content MathML of a formula marks it up. -/
theorem markedUpBy_mathml (formula : Formula) : formula.MarkedUpBy formula.mathml.toList := by
  rw [toList_mathml]
  exact .alone rfl (laid_plainThen _ _)

end Formula

namespace Reading

open Formula Markup

variable {name word : String} {pieces : List Markup} {text middle rest : List Char}

/-! ## Single tags -/

/-- What ends with a character which is no blank still does so when it is trimmed. -/
theorem getLast?_trim_concat {c : Char} (h : isBlank c = false) (text : List Char) :
    (trim (text ++ [c])).getLast? = some c := by
  have hskip : ∃ front, skipBlanks (text ++ [c]) = front ++ [c] := by
    rw [skipBlanks, List.dropWhile_append]
    split
    · exact ⟨[], skipBlanks_cons h []⟩
    · exact ⟨_, rfl⟩
  obtain ⟨front, hfront⟩ := hskip
  rw [trim, hfront, List.reverse_append, List.reverse_singleton, List.singleton_append,
    skipBlanks_cons h, List.reverse_cons, List.getLast?_concat]

/-- Attributes and what ends a tag do not begin with a letter. -/
theorem head_of_attributes {attributes : List Char} (h : Attributes attributes) {c : Char}
    (hc : c.isAlpha = false) (rest : List Char) :
    ∀ d ∈ (attributes ++ c :: rest).head?, d.isAlpha = false := by
  cases attributes with
  | nil =>
    rintro d ⟨⟩
    exact hc
  | cons blank attributes =>
    rintro d ⟨⟩
    rw [Bool.eq_false_iff]
    intro hletter
    have hblank : isBlank blank = true := h.1
    rw [isBlank_of_isAlpha hletter] at hblank
    cases hblank

section

variable (hne : word ≠ "") (hword : word.toList.all Char.isAlpha = true)

include hne hword

/-- A tag which is no closing tag is read as its name and what its attributes end with. -/
theorem openingTag_eq {blanks inside : List Char} (hblanks : blanks.all isBlank = true)
    (hhead : ∀ c ∈ (inside ++ '>' :: rest).head?, c.isAlpha = false) (hinside : '>' ∉ inside) :
    openingTag (blanks ++ '<' :: (word.toList ++ (inside ++ '>' :: rest))) =
      .ok (⟨word, (trim inside).getLast? = some '/'⟩, rest) := by
  have hname := readName_append hne (List.all_eq_true.mp hword) hhead
  rw [openingTag, readChar_append hblanks (by decide)]
  simp only [bind, Except.bind, hname, readUntil_append hinside]
  rfl

/-- An opening tag is read, whatever its attributes are. -/
theorem openingTag_of_opening (h : Begins (.opening word) text rest) :
    openingTag text = .ok (⟨word, false⟩, rest) := by
  cases h with
  | opening _ _ hblanks hattributes hslash =>
    rw [openingTag_eq hne hword hblanks (head_of_attributes hattributes rfl rest) hattributes.2,
      decide_eq_false hslash]

/-- A tag of an element without content is read, whatever its attributes are. -/
theorem openingTag_of_empty (h : Begins (.empty word) text rest) :
    openingTag text = .ok (⟨word, true⟩, rest) := by
  cases h with
  | @empty _ _ attributes _ hblanks hattributes =>
    have hslash : '>' ∉ attributes ++ ['/'] := by
      rw [List.mem_append, List.mem_singleton]
      rintro (hmem | hmem)
      · exact hattributes.2 hmem
      · cases hmem
    have hsplit : attributes ++ '/' :: '>' :: rest = (attributes ++ ['/']) ++ '>' :: rest := by
      rw [List.append_assoc]
      rfl
    have hhead := head_of_attributes hattributes (show '/'.isAlpha = false from rfl) ('>' :: rest)
    rw [hsplit] at hhead ⊢
    rw [openingTag_eq hne hword hblanks hhead hslash, getLast?_trim_concat (by decide)]
    rfl

/-- A closing tag is read where it is expected. -/
theorem closingTag_of_closing (h : Begins (.closing word) text rest) :
    closingTag word text = .ok rest := by
  cases h with
  | closing _ _ hblanks =>
    have hname : readName (word.toList ++ '>' :: rest) = .ok (word, '>' :: rest) :=
      readName_append hne (List.all_eq_true.mp hword) (by rintro c ⟨⟩; rfl)
    have hslash := @readChar_append '/' [] rfl (by decide) (word.toList ++ '>' :: rest)
    have hend := @readChar_append '>' [] rfl (by decide) rest
    rw [List.nil_append] at hslash hend
    show closingTag word (_ ++ '<' :: ('/' :: word.toList ++ '>' :: rest)) = _
    rw [closingTag, readChar_append hblanks (by decide)]
    simp only [bind, Except.bind, List.cons_append, hslash, hname, ↓reduceIte, hend]

end

/-- Of the text between two tags, the blanks around it are not read. -/
theorem readUntil_of_content (hcontent : Begins (.content word) text middle)
    (hclosing : Begins (.closing name) middle rest) (hmem : '<' ∉ word.toList)
    (hword : ∀ c ∈ word.toList, isBlank c = false) :
    ∃ after, readUntil '<' text = .ok (word.toList, after) ∧ Begins (.closing name) after rest := by
  cases hclosing with
  | @closing _ blanks _ hblanks =>
    cases hcontent with
    | @content _ left right _ hleft hright =>
      have hbehind : (right ++ blanks).all isBlank = true := by
        rw [List.all_append, hright, hblanks]
        rfl
      have hread := readUntil_blanks hleft hbehind (by decide) hmem hword
        ('/' :: name.toList ++ '>' :: rest)
      rw [List.append_assoc] at hread
      exact ⟨closingThen name rest, hread, begins_plainThen (.closing name) rest⟩

/-- Where a closing tag begins, a closing tag is seen. -/
theorem atClosingTag_of_closing (h : Begins (.closing name) text rest) :
    atClosingTag text = true := by
  cases h with
  | closing _ _ hblanks =>
    rw [atClosingTag, skipBlanks_append hblanks, closingThen, List.cons_append,
      skipBlanks_cons (by decide)]
    rfl

section

variable {tag : Tag} (h : openingTag text = .ok (tag, rest))

include h

/-- What is read as a tag begins with `<`. -/
theorem head_of_openingTag : (skipBlanks text).head? = some '<' := by
  obtain ⟨inside, hchar, -⟩ := exists_of_bind h
  rw [readChar] at hchar
  split at hchar
  · cases hchar
  · next hskip =>
    rw [hskip]
    split at hchar
    · next heq =>
      rw [heq]
      rfl
    · cases hchar

/-- A closing tag is not read as another tag, since a slash is no letter. -/
theorem atClosingTag_of_openingTag : atClosingTag text = false := by
  rw [atClosingTag]
  split
  · next inside hskip =>
    obtain ⟨middle, hchar, h⟩ := exists_of_bind h
    obtain ⟨tag, hname, -⟩ := exists_of_bind h
    rw [readChar, hskip] at hchar
    cases hchar
    rw [readName, skipBlanks_cons (by decide)] at hname
    cases hname
  · rfl

end

/-! ## Elements -/

/-- Whether a formula is read from its tags and texts, however they are laid out, in front of
others which are left as they are. -/
def ReadsLaid (formula : Formula) : Prop :=
  ∀ ⦃fuel : Nat⦄ ⦃pieces : List Markup⦄ ⦃text rest : List Char⦄,
    Laid (formula.markupThen pieces) text rest → text.length < fuel →
      ∃ tag inside after, openingTag text = .ok (tag, inside) ∧ tag.name ∈ words ∧
        elementWithin fuel tag inside = .ok (formula, after) ∧ Laid pieces after rest ∧
        after.length < text.length

/-- Operands which are read from their tags and texts are read one after the other, up to the tag
which closes the application. -/
theorem elementsWithin_of_laid {operands : List Formula}
    (hoperands : ∀ operand ∈ operands, ReadsLaid operand) {fuel : Nat}
    (h : Laid (operandMarkupThen operands (.closing "apply" :: pieces)) text rest)
    (hfuel : text.length + 1 < fuel) :
    ∃ after, elementsWithin fuel text = .ok (operands, after) ∧
      Laid (.closing "apply" :: pieces) after rest ∧ after.length ≤ text.length := by
  induction operands generalizing fuel text with
  | nil =>
    obtain ⟨middle, hclosing, -⟩ := laid_cons.mp h
    cases fuel with
    | zero => cases hfuel
    | succ fuel =>
      refine ⟨text, ?_, h, Nat.le_refl _⟩
      rw [elementsWithin, atClosingTag_of_closing hclosing]
      rfl
  | cons operand operands ih =>
    cases fuel with
    | zero => cases hfuel
    | succ fuel =>
      obtain ⟨tag, inside, middle, htag, -, helement, hlaid, hlt⟩ :=
        hoperands operand List.mem_cons_self h (Nat.lt_of_succ_lt_succ hfuel)
      have hless : middle.length + 1 < fuel := by omega
      obtain ⟨after, helements, hafter, hle⟩ :=
        ih (fun other hother => hoperands other (List.mem_cons_of_mem _ hother)) hlaid hless
      refine ⟨after, ?_, hafter, by omega⟩
      rw [elementsWithin, atClosingTag_of_openingTag htag]
      simp only [Bool.false_eq_true, ↓reduceIte, bind, Except.bind, htag, helement, helements]
      rfl

/-- An element with text is read up to its closing tag. -/
theorem exists_of_laid_content (hne : name ≠ "") (hname : name.toList.all Char.isAlpha = true)
    (hmem : '<' ∉ word.toList) (hword : ∀ c ∈ word.toList, isBlank c = false)
    (h : Laid (.opening name :: .content word :: .closing name :: pieces) text rest) :
    ∃ inside middle after, openingTag text = .ok (⟨name, false⟩, inside) ∧
      readUntil '<' inside = .ok (word.toList, middle) ∧ closingTag name middle = .ok after ∧
      Laid pieces after rest ∧ after.length < text.length := by
  obtain ⟨inside, hopening, h⟩ := laid_cons.mp h
  obtain ⟨behind, hcontent, h⟩ := laid_cons.mp h
  obtain ⟨after, hclosing, h⟩ := laid_cons.mp h
  obtain ⟨middle, huntil, hmiddle⟩ := readUntil_of_content hcontent hclosing hmem hword
  have hinside := hopening.length_lt nofun
  have hbehind := hcontent.length_le
  have hafter := hclosing.length_lt nofun
  exact ⟨inside, middle, after, openingTag_of_opening hne hname hopening, huntil,
    closingTag_of_closing hne hname hmiddle, h, by omega⟩

/-- A number is read from its tags and its text. -/
theorem readsLaid_number {literal : String} (h : isNumberLiteral literal = true) :
    ReadsLaid (.number literal) := by
  intro fuel pieces text rest hlaid hfuel
  have hmem : '<' ∉ literal.toList := by
    intro hc
    obtain hdigit | hpoint | hminus := mem_of_isNumberLiteral h hc
    · cases hdigit
    · cases hpoint
    · cases hminus
  obtain ⟨inside, middle, after, htag, huntil, hclosing, hafter, hlt⟩ :=
    exists_of_laid_content (by decide) (by decide) hmem (isBlank_of_isNumberLiteral h) hlaid
  refine ⟨_, inside, after, htag, by decide, ?_, hafter, hlt⟩
  cases fuel with
  | zero => cases hfuel
  | succ fuel =>
    rw [elementWithin]
    simp only [Bool.false_eq_true, String.reduceEq, ↓reduceIte, bind, Except.bind, huntil,
      number_toList h, hclosing]
    rfl

/-- An identifier is read from its tags and its letter. -/
theorem readsLaid_identifier {letter : Char} (h : isAlphabetic letter = true) :
    ReadsLaid (.identifier letter) := by
  intro fuel pieces text rest hlaid hfuel
  have hletter : letter.toString.toList = [letter] := String.toList_singleton letter
  have hmem : '<' ∉ letter.toString.toList := by
    rw [hletter, List.mem_singleton]
    rintro rfl
    exact absurd h (by decide +kernel)
  have hblank : ∀ c ∈ letter.toString.toList, isBlank c = false := by
    rw [hletter]
    exact List.forall_mem_singleton.mpr (isBlank_of_isAlphabetic h)
  obtain ⟨inside, middle, after, htag, huntil, hclosing, hafter, hlt⟩ :=
    exists_of_laid_content (by decide) (by decide) hmem hblank hlaid
  rw [hletter] at huntil
  refine ⟨_, inside, after, htag, by decide, ?_, hafter, hlt⟩
  cases fuel with
  | zero => cases hfuel
  | succ fuel =>
    rw [elementWithin]
    simp only [Bool.false_eq_true, String.reduceEq, ↓reduceIte, bind, Except.bind, huntil,
      identifier_singleton h, hclosing]
    rfl

/-- A constant is read from its tag. -/
theorem readsLaid_constant (name : Constant) : ReadsLaid (.constant name) := by
  intro fuel pieces text rest hlaid hfuel
  obtain ⟨after, hempty, hlaid⟩ := laid_cons.mp hlaid
  obtain ⟨hne, hname⟩ := letters_of_mem_words (constant_tag_mem_words name)
  refine ⟨_, after, after, openingTag_of_empty hne hname hempty, constant_tag_mem_words name, ?_,
    hlaid, hempty.length_lt nofun⟩
  cases fuel with
  | zero => cases hfuel
  | succ fuel =>
    rw [elementWithin]
    simp only [↓reduceIte, Constant.ofTag?_tag]
    rfl

/-- A degree is read from its tags, if its value is read from what is between them. -/
theorem readsLaid_degree {value : Formula} (ih : ReadsLaid value) :
    ReadsLaid (.degree value) := by
  intro fuel pieces text rest hlaid hfuel
  obtain ⟨inside, hopening, hlaid⟩ := laid_cons.mp hlaid
  have hinside := hopening.length_lt nofun
  cases fuel with
  | zero => cases hfuel
  | succ fuel =>
    have hless : inside.length < fuel := by omega
    obtain ⟨tag, content, behind, htag, -, helement, hbehind, hlt⟩ := ih hlaid hless
    obtain ⟨after, hclosing, hafter⟩ := laid_cons.mp hbehind
    have hlt' := hclosing.length_lt nofun
    refine ⟨_, inside, after, openingTag_of_opening (by decide) (by decide) hopening, by decide, ?_,
      hafter, by omega⟩
    rw [elementWithin]
    simp only [Bool.false_eq_true, String.reduceEq, ↓reduceIte, bind, Except.bind, htag, helement,
      closingTag_of_closing (by decide) (by decide) hclosing]
    rfl

/-- An application is read from its tags, if its operands are read from what is between them. -/
theorem readsLaid_apply (op : Operator) {operands : List Formula}
    (ih : ∀ operand ∈ operands, ReadsLaid operand) : ReadsLaid (.apply op operands) := by
  intro fuel pieces text rest hlaid hfuel
  obtain ⟨inside, hopening, hlaid⟩ := laid_cons.mp hlaid
  obtain ⟨behindHead, hhead, hlaid⟩ := laid_cons.mp hlaid
  obtain ⟨hne, hword⟩ := letters_of_mem_words (tag_mem_words op)
  have hinside := hopening.length_lt nofun
  have hbehindHead := hhead.length_lt nofun
  cases fuel with
  | zero => cases hfuel
  | succ fuel =>
    have hless : behindHead.length + 1 < fuel := by omega
    obtain ⟨behind, helements, hbehind, hle⟩ := elementsWithin_of_laid ih hlaid hless
    obtain ⟨after, hclosing, hafter⟩ := laid_cons.mp hbehind
    have hlt := hclosing.length_lt nofun
    refine ⟨_, inside, after, openingTag_of_opening (by decide) (by decide) hopening, by decide, ?_,
      hafter, by omega⟩
    rw [elementWithin]
    simp only [Bool.false_eq_true, ↓reduceIte, bind, Except.bind,
      openingTag_of_empty hne hword hhead, operator_tag, helements,
      closingTag_of_closing (by decide) (by decide) hclosing]
    rfl

/-- A formula which is spelled properly is read however its markup is laid out. -/
theorem readsLaid {formula : Formula} (h : formula.Spelled) : ReadsLaid formula := by
  induction h with
  | number h => exact readsLaid_number h
  | identifier h => exact readsLaid_identifier h
  | constant name => exact readsLaid_constant name
  | degree _ ih => exact readsLaid_degree ih
  | apply op _ ih => exact readsLaid_apply op ih

end Reading

namespace Formula

open Markup Reading

/-- What is read of a text which begins with a tag is all of it if nothing but blanks are left. -/
theorem readForm_of_mathml {formula : Formula} {text inside blanks : List Char} {tag : Tag}
    (htag : openingTag text = .ok (tag, inside))
    (hread : Reading.mathml text = .ok (formula, blanks)) (hblanks : blanks.all isBlank = true) :
    readForm text = .ok formula := by
  rw [readForm, if_pos (head_of_openingTag htag)]
  simp only [bind, Except.bind, hread, skipBlanks_eq_nil_iff.mpr hblanks]
  rfl

/-- A formula which is spelled properly is read from every text which marks it up. -/
theorem MarkedUpBy.readForm_eq {formula : Formula} {text : List Char} (h : formula.MarkedUpBy text)
    (hspelled : formula.Spelled) : readForm text = .ok formula := by
  cases h with
  | @alone blanks hblanks hlaid =>
    obtain ⟨tag, inside, after, htag, hword, helement, hafter, -⟩ :=
      readsLaid hspelled hlaid (Nat.lt_succ_self _)
    cases hafter
    have hmath : tag.name ≠ "math" := by
      intro hname
      rw [hname] at hword
      exact absurd hword (by decide)
    refine readForm_of_mathml htag ?_ hblanks
    rw [Reading.mathml]
    simp only [bind, Except.bind, htag, if_neg hmath, helement]
  | @inMath blanks hblanks hlaid =>
    obtain ⟨content, hopening, hlaid⟩ := laid_cons.mp hlaid
    have hopened := openingTag_of_opening (by decide) (by decide) hopening
    have hless : content.length < text.length + 1 :=
      Nat.lt_succ_of_lt (hopening.length_lt nofun)
    obtain ⟨tag, inside, behind, htag, -, helement, hbehind, -⟩ := readsLaid hspelled hlaid hless
    obtain ⟨after, hclosing, hafter⟩ := laid_cons.mp hbehind
    cases hafter
    refine readForm_of_mathml hopened ?_ hblanks
    rw [Reading.mathml]
    simp only [bind, Except.bind, hopened, Bool.false_eq_true, ↓reduceIte, htag, helement,
      closingTag_of_closing (by decide) (by decide) hclosing]
    rfl

/-- The content MathML of a formula which is spelled properly and passes the check denotes it. -/
theorem ofText_mathml {formula : Formula} (hspelled : formula.Spelled)
    (hcheck : formula.check = .ok ()) : ofText formula.mathml = .ok formula :=
  ofText_eq_ok_iff.mpr ⟨(markedUpBy_mathml formula).readForm_eq hspelled, hcheck⟩

end Formula

end FormulaEditor
