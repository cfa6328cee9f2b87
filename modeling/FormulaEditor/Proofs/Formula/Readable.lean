import FormulaEditor.Editor
import FormulaEditor.Proofs.Formula.Markup
import FormulaEditor.Proofs.Formula.Spacing
import Mathlib.Data.Set.Function

/-!
# The formulas which texts denote

A formula is readable if it is spelled properly and passes the check (`Formula.Readable`). Whatever
is read in one of the two forms is spelled properly, so the formulas which texts denote are exactly
the readable ones, and each of them is denoted by its own text in either form
(`Formula.ofText_faithful`). Of the texts in compact form, exactly those denote a readable formula
which write it, and nothing else about their layout matters (`Formula.ofText_eq_ok_iff_writtenBy`).
Neither do the layout of content MathML, its attributes or a `math` element around it
(`Formula.ofText_of_markedUpBy`).
-/

set_option autoImplicit false

namespace FormulaEditor

/-- Numbers are literals, identifiers are letters, operators have the operands they take, and a
degree only stands as the first of the two operands of a root. -/
structure Formula.Readable (formula : Formula) : Prop where
  spelled : formula.Spelled
  check : formula.check = .ok ()

namespace Reading

open Text

/-- With so much fuel, what an element denotes is spelled properly, and so is what the elements in it
denote. -/
structure ElementSpelled (fuel : Nat) : Prop where
  element : ∀ {tag text rest formula}, elementWithin fuel tag text = .ok (formula, rest) →
    formula.Spelled
  elements : ∀ {text rest values}, elementsWithin fuel text = .ok (values, rest) →
    ∀ value ∈ values, Formula.Spelled value

/-- With one more round of fuel an element is still read as a formula which is spelled properly. -/
theorem ElementSpelled.element_succ {fuel : Nat} (ih : ElementSpelled fuel)
    {tag : Tag} {text rest : List Char} {formula : Formula}
    (h : elementWithin (fuel + 1) tag text = .ok (formula, rest)) : formula.Spelled := by
  rw [elementWithin] at h
  split at h
  · -- an element without content is a constant
    split at h
    · next constant _ =>
      cases h
      exact .constant constant
    · cases h
  split at h
  · obtain ⟨⟨head, afterHead⟩, -, h⟩ := exists_of_bind h
    dsimp only at h
    split at h
    · obtain ⟨op, -, h⟩ := exists_of_bind h
      obtain ⟨⟨operands, afterOperands⟩, hoperands, h⟩ := exists_of_bind h
      obtain ⟨afterClosing, -, h⟩ := exists_of_bind h
      cases h
      exact .apply op (ih.elements hoperands)
    · cases h
  split at h
  · obtain ⟨⟨content, afterContent⟩, -, h⟩ := exists_of_bind h
    obtain ⟨found, hnumber, h⟩ := exists_of_bind h
    obtain ⟨afterClosing, -, h⟩ := exists_of_bind h
    cases h
    exact spelled_of_number hnumber
  split at h
  · obtain ⟨⟨content, afterContent⟩, -, h⟩ := exists_of_bind h
    obtain ⟨found, hidentifier, h⟩ := exists_of_bind h
    obtain ⟨afterClosing, -, h⟩ := exists_of_bind h
    cases h
    exact spelled_of_identifier hidentifier
  split at h
  · obtain ⟨⟨inner, afterInner⟩, -, h⟩ := exists_of_bind h
    obtain ⟨⟨value, afterValue⟩, hvalue, h⟩ := exists_of_bind h
    obtain ⟨afterClosing, -, h⟩ := exists_of_bind h
    cases h
    exact .degree (ih.element hvalue)
  · cases h

/-- With one more round of fuel a list of elements is still read as formulas which are spelled
properly. -/
theorem ElementSpelled.elements_succ {fuel : Nat} (ih : ElementSpelled fuel)
    {text rest : List Char} {values : List Formula}
    (h : elementsWithin (fuel + 1) text = .ok (values, rest)) :
    ∀ value ∈ values, value.Spelled := by
  rw [elementsWithin] at h
  split at h
  · cases h
    exact List.forall_mem_nil _
  · obtain ⟨⟨tag, afterTag⟩, -, h⟩ := exists_of_bind h
    obtain ⟨⟨value, afterValue⟩, hvalue, h⟩ := exists_of_bind h
    obtain ⟨⟨others, afterOthers⟩, hothers, h⟩ := exists_of_bind h
    cases h
    exact List.forall_mem_cons.mpr ⟨ih.element hvalue, ih.elements hothers⟩

/-- An element is read with more fuel than the elements in it. -/
theorem elementSpelled (fuel : Nat) : ElementSpelled fuel := by
  induction fuel with
  | zero =>
    constructor
    · intro tag text rest formula h
      rw [elementWithin] at h
      cases h
    · intro text rest values h
      rw [elementsWithin] at h
      cases h
  | succ fuel ih => exact ⟨ih.element_succ, ih.elements_succ⟩

/-- What is read as content MathML is spelled properly. -/
theorem spelled_of_mathml {text rest : List Char} {formula : Formula}
    (h : mathml text = .ok (formula, rest)) : formula.Spelled := by
  rw [mathml] at h
  obtain ⟨⟨tag, afterTag⟩, -, h⟩ := exists_of_bind h
  dsimp only at h
  split at h
  · split at h
    · cases h
    · obtain ⟨⟨inner, afterInner⟩, -, h⟩ := exists_of_bind h
      obtain ⟨⟨value, afterValue⟩, hvalue, h⟩ := exists_of_bind h
      obtain ⟨afterClosing, -, h⟩ := exists_of_bind h
      cases h
      exact (elementSpelled _).element hvalue
  · exact (elementSpelled _).element h

/-- What is read in one of the two forms is spelled properly. -/
theorem spelled_of_readForm {text : List Char} {formula : Formula}
    (h : Formula.readForm text = .ok formula) : formula.Spelled := by
  by_cases hform : (skipBlanks text).head? = some '<'
  · rw [Formula.readForm, if_pos hform] at h
    obtain ⟨⟨value, rest⟩, hvalue, h⟩ := exists_of_bind h
    dsimp only at h
    split at h
    · cases h
      exact spelled_of_mathml hvalue
    · cases h
  · exact (Formula.writtenBy_of_readForm hform h).1

end Reading

/-! ## Both forms -/

namespace Formula

/-- A readable formula is denoted by its text in either form. -/
theorem Readable.ofText_text {formula : Formula} (h : formula.Readable) (format : Format) :
    ofText (format.text formula) = .ok formula := by
  cases format with
  | compact => exact ofText_compact h.spelled h.check
  | mathml => exact ofText_mathml h.spelled h.check

/-- What a text denotes is readable. -/
theorem readable_of_ofText {text : String} {formula : Formula} (h : ofText text = .ok formula) :
    formula.Readable :=
  ⟨Reading.spelled_of_readForm (ofText_eq_ok_iff.mp h).1, (ofText_eq_ok_iff.mp h).2⟩

/-- Both forms are faithful: the text of a readable formula denotes it, whatever a text denotes is
readable, and so the readable formulas are those which some text denotes, and no two of them have
the same text. -/
theorem ofText_faithful :
    (∀ (formula : Formula) (format : Format), formula.Readable →
      ofText (format.text formula) = .ok formula) ∧
    (∀ (text : String) (formula : Formula), ofText text = .ok formula → formula.Readable) ∧
    (∀ formula : Formula, (∃ text, ofText text = .ok formula) ↔ formula.Readable) ∧
    ∀ format : Format, Set.InjOn format.text {formula | formula.Readable} := by
  refine ⟨fun _ format h => h.ofText_text format, fun _ _ => readable_of_ofText, fun formula => ?_,
    fun format => ?_⟩
  · constructor
    · rintro ⟨text, htext⟩
      exact readable_of_ofText htext
    · intro h
      exact ⟨_, h.ofText_text .compact⟩
  · intro formula h other hother heq
    have hread := h.ofText_text format
    rw [heq, hother.ofText_text format] at hread
    exact (Except.ok.inj hread).symm

/-- A root whose degree is a sum of three operands, one of them negative, is read from both of its
texts. -/
theorem ofText_faithful_root :
    let formula : Formula := .apply .root
      [.degree (.apply .plus [.number "-1.50", .constant .infinity, .identifier 'π']),
        .apply .minus [.identifier 'x']]
    formula.Readable ∧ ∀ format : Format, ofText (format.text formula) = .ok formula := by
  intro formula
  have hdegree : Spelled (.degree (.apply .plus
      [.number "-1.50", .constant .infinity, .identifier 'π'])) := by
    refine .degree (.apply _ (List.forall_mem_cons.mpr ⟨.number rfl, List.forall_mem_cons.mpr
      ⟨.constant _, List.forall_mem_singleton.mpr (.identifier ?_)⟩⟩))
    decide +kernel
  have hradicand : Spelled (.apply .minus [.identifier 'x']) :=
    .apply _ (List.forall_mem_singleton.mpr (.identifier rfl))
  have hspelled : formula.Spelled :=
    .apply _ (List.forall_mem_cons.mpr ⟨hdegree, List.forall_mem_singleton.mpr hradicand⟩)
  have hreadable : formula.Readable := ⟨hspelled, rfl⟩
  exact ⟨hreadable, fun format => ofText_faithful.1 formula format hreadable⟩

/-! ## The compact form -/

open Text

/-- Texts in compact form are characterized: whatever does not begin with `<` behind its blanks
denotes a formula if and only if the formula is readable and the text has its tokens, as its own
compact text does, with any blanks in front of each of them and at the end. Every other text is
refused as a value. -/
theorem ofText_eq_ok_iff_writtenBy {text : String}
    (hform : (skipBlanks text.toList).head? ≠ some '<') :
    (∀ formula : Formula, ofText text = .ok formula ↔
      formula.Readable ∧ formula.WrittenBy text.toList) ∧
    ((∀ formula : Formula, formula.Readable → ¬ formula.WrittenBy text.toList) →
      ∃ fault, ofText text = .error (.invalidValue fault)) ∧
    ∀ formula : Formula, formula.WrittenBy formula.compact.toList := by
  have hiff : ∀ formula : Formula, ofText text = .ok formula ↔
      formula.Readable ∧ formula.WrittenBy text.toList := by
    intro formula
    rw [ofText_eq_ok_iff]
    constructor
    · rintro ⟨hread, hcheck⟩
      obtain ⟨hspelled, hwritten⟩ := writtenBy_of_readForm hform hread
      exact ⟨⟨hspelled, hcheck⟩, hwritten⟩
    · rintro ⟨hreadable, hwritten⟩
      exact ⟨hwritten.readForm_eq hreadable.spelled, hreadable.check⟩
  refine ⟨hiff, fun hnone => ?_, writtenBy_compact⟩
  cases htext : ofText text with
  | ok formula =>
    obtain ⟨hreadable, hwritten⟩ := (hiff formula).mp htext
    exact absurd hwritten (hnone formula hreadable)
  | error error =>
    obtain ⟨fault, rfl⟩ := invalidValue_of_ofText htext
    exact ⟨fault, rfl⟩

/-- A negated number is read from a text with blanks in front of its tokens and at the end. -/
theorem ofText_eq_ok_iff_writtenBy_blanks :
    let text := "\tapply ( minus\n,cn(  1.50 ) )  "
    let formula : Formula := .apply .minus [.number "1.50"]
    (skipBlanks text.toList).head? ≠ some '<' ∧ ofText text = .ok formula := by
  intro text formula
  have hform : (skipBlanks text.toList).head? ≠ some '<' := by decide
  have hspelled : formula.Spelled := .apply _ (List.forall_mem_singleton.mpr (.number rfl))
  have hreadable : formula.Readable := ⟨hspelled, rfl⟩
  have hspaced := Reading.Spaced.cons ['\t'] "apply" rfl <| .cons [' '] "(" rfl <|
    .cons [' '] "minus" rfl <| .cons ['\n'] "," rfl <| .cons [] "cn" rfl <| .cons [] "(" rfl <|
    .cons [' ', ' '] "1.50" rfl <| .cons [' '] ")" rfl <| .singleton [' '] ")" [' ', ' '] rfl
  have hwritten : formula.WrittenBy text.toList := by
    refine ⟨[' ', ' '], rfl, ?_⟩
    convert hspaced using 1 <;> decide
  exact ⟨hform, ((ofText_eq_ok_iff_writtenBy hform).1 formula).mpr ⟨hreadable, hwritten⟩⟩

/-! ## The content MathML form -/

open Markup

/-- The content MathML of a readable formula may be laid out in any way: the tags and texts of its
own content MathML denote it with any blanks in front of each tag, around each text and at the end,
any attributes in tags which are no closing tags, and all of this alone or in a `math` element. -/
theorem ofText_of_markedUpBy {formula : Formula} (h : formula.Readable) :
    formula.mathml.toList = (formula.markupThen []).foldr plainThen [] ∧
      formula.MarkedUpBy formula.mathml.toList ∧
      ∀ text : String, formula.MarkedUpBy text.toList → ofText text = .ok formula :=
  ⟨toList_mathml formula, markedUpBy_mathml formula, fun _ hmarkup =>
    ofText_eq_ok_iff.mpr ⟨hmarkup.readForm_eq h.spelled, h.check⟩⟩

/-- A negated number is read from a `math` element with blanks and attributes, one of which holds a
slash in front of blanks but does not end with it. -/
theorem ofText_of_markedUpBy_math :
    let text := "\n<math href=a/b > <apply><minus /><cn type=real> 1.50\n</cn>\t</apply></math> "
    let formula : Formula := .apply .minus [.number "1.50"]
    formula.Readable ∧ ofText text = .ok formula := by
  intro text formula
  have hspelled : formula.Spelled := .apply _ (List.forall_mem_singleton.mpr (.number rfl))
  have hreadable : formula.Readable := ⟨hspelled, rfl⟩
  have hlaid := Laid.cons (@Begins.opening "math" ['\n'] " href=a/b ".toList _ rfl
      (by decide) (by decide)) <|
    .cons (@Begins.opening "apply" [' '] [] _ rfl attributes_nil nofun) <|
    .cons (@Begins.empty "minus" [] [' '] _ rfl (by decide)) <|
    .cons (@Begins.opening "cn" [] " type=real".toList _ rfl (by decide) (by decide)) <|
    .cons (@Begins.content "1.50" [' '] ['\n'] _ rfl rfl) <|
    .cons (@Begins.closing "cn" [] _ rfl) <| .cons (@Begins.closing "apply" ['\t'] _ rfl) <|
    .cons (@Begins.closing "math" [] _ rfl) <| .nil [' ']
  have hmarkup : formula.MarkedUpBy text.toList := by
    refine @MarkedUpBy.inMath formula _ [' '] rfl ?_
    convert hlaid using 1 <;> decide
  exact ⟨hreadable, (ofText_of_markedUpBy hreadable).2.2 text hmarkup⟩

end Formula

end FormulaEditor
