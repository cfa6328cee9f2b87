import Mathlib.Computability.RegularExpressions
import Mathlib.Tactic.IntervalCases
import FormulaEditor.Proofs.Fractions

/-!
# Numerals which are typed

Numerals are recognized twice: as a whole, where a literal is expected, and from the left, where a
number stands in a line and ends where it cannot go on. A literal is what matches a regular
expression (`isNumberLiteral_iff_matches`). A text of digits and points is read from the left as a
number if it is a literal, and otherwise there is a point left over which no term can begin with
(`Lexeme.term_of_digits_and_points`). So what is typed into an empty field denotes a number just if
it is a literal (`Editor.formula_typed_numeral`).
-/

set_option autoImplicit false

namespace FormulaEditor

/-! ## Literals as a regular language -/

namespace Literal

open RegularExpression (char)

/-- The pattern `[0-9]`. -/
def digitPattern : RegularExpression Char :=
  ("0123456789".toList.map char).sum

/-- The pattern `[0-9]+`. -/
def digitsPattern : RegularExpression Char :=
  digitPattern * digitPattern.star

/-- The pattern `-?[0-9]+(\.[0-9]+)?`. -/
def pattern : RegularExpression Char :=
  (1 + char '-') * (digitsPattern * (1 + char '.' * digitsPattern))

variable {text : List Char}

/-- The digits are the ten characters from `0` to `9`. -/
theorem isDigit_iff_mem {c : Char} : c.isDigit = true ↔ c ∈ "0123456789".toList := by
  constructor
  · intro h
    obtain ⟨hlower, hupper⟩ := Bool.and_eq_true_iff.mp h
    have hlower : 48 ≤ c.toNat := of_decide_eq_true hlower
    have hupper : c.toNat ≤ 57 := of_decide_eq_true hupper
    rw [← Char.ofNat_toNat c]
    interval_cases c.toNat <;> decide
  · have hall : "0123456789".toList.all Char.isDigit = true := by decide
    exact List.all_eq_true.mp hall c

/-- What holds for ten digits holds for all. -/
theorem of_isDigit {P : Char → Prop} [DecidablePred P]
    (hall : "0123456789".toList.all (fun c => decide (P c)) = true) {c : Char}
    (hc : c.isDigit = true) : P c :=
  of_decide_eq_true (List.all_eq_true.mp hall c (isDigit_iff_mem.mp hc))

/-- What matches a choice between characters is one of them. -/
theorem mem_sum_char {chars : List Char} :
    text ∈ (chars.map char).sum.matches' ↔ ∃ c ∈ chars, text = [c] := by
  induction chars with
  | nil => simp
  | cons c chars ih =>
    rw [List.map_cons, List.sum_cons, RegularExpression.matches'_add, Language.mem_add, ih,
      RegularExpression.matches'_char, List.exists_mem_cons_iff]
    rfl

/-- A text matches the pattern of a digit just if it is one. -/
theorem mem_digitPattern :
    text ∈ digitPattern.matches' ↔ ∃ c, c.isDigit = true ∧ text = [c] := by
  simp only [digitPattern, mem_sum_char, isDigit_iff_mem]

/-- A text matches the pattern of digits just if it is made of digits, and not empty. -/
theorem mem_digitsPattern : text ∈ digitsPattern.matches' ↔ isDigits text = true := by
  rw [digitsPattern, RegularExpression.matches'_mul, RegularExpression.matches'_star,
    Language.mem_mul, isDigits_iff]
  constructor
  · rintro ⟨first, hfirst, rest, hrest, rfl⟩
    obtain ⟨c, hc, rfl⟩ := mem_digitPattern.mp hfirst
    obtain ⟨others, rfl, hothers⟩ := Language.mem_kstar.mp hrest
    refine ⟨List.cons_ne_nil _ _, fun d hd => ?_⟩
    obtain rfl | hd := List.mem_cons.mp hd
    · exact hc
    · obtain ⟨other, hother, hd⟩ := List.mem_flatten.mp hd
      obtain ⟨c, hc, rfl⟩ := mem_digitPattern.mp (hothers other hother)
      rwa [List.mem_singleton.mp hd]
  · rintro ⟨hne, hdigits⟩
    cases text with
    | nil => exact absurd rfl hne
    | cons c rest =>
      obtain ⟨hc, hrest⟩ := List.forall_mem_cons.mp hdigits
      refine ⟨[c], mem_digitPattern.mpr ⟨c, hc, rfl⟩, rest,
        Language.mem_kstar.mpr ⟨rest.map ([·]), ?_, ?_⟩, rfl⟩
      · rw [← List.flatMap_def, List.flatMap_singleton']
      · intro other hother
        obtain ⟨d, hd, rfl⟩ := List.mem_map.mp hother
        exact mem_digitPattern.mpr ⟨d, hrest d hd, rfl⟩

/-- A text matches the pattern of a sign just if it is nothing or a minus sign. -/
theorem mem_signPattern : text ∈ (1 + char '-').matches' ↔ text = [] ∨ text = ['-'] := by
  rw [RegularExpression.matches'_add, Language.mem_add, RegularExpression.matches'_char,
    RegularExpression.matches'_epsilon, Language.mem_one]
  rfl

/-- A text matches the pattern of places just if it is nothing or a point with digits behind it. -/
theorem mem_placesPattern : text ∈ (1 + char '.' * digitsPattern).matches' ↔
    text = [] ∨ ∃ places, isDigits places = true ∧ text = '.' :: places := by
  rw [RegularExpression.matches'_add, Language.mem_add, RegularExpression.matches'_epsilon,
    Language.mem_one, RegularExpression.matches'_mul, Language.mem_mul,
    RegularExpression.matches'_char]
  refine or_congr_right ⟨?_, ?_⟩
  · rintro ⟨_, rfl, places, hplaces, rfl⟩
    exact ⟨places, mem_digitsPattern.mp hplaces, rfl⟩
  · rintro ⟨places, hplaces, rfl⟩
    exact ⟨['.'], rfl, places, mem_digitsPattern.mpr hplaces, rfl⟩

/-- A text matches the pattern of a literal without its sign just if it is a numeral without a sign.
-/
theorem mem_unsignedPattern :
    text ∈ (digitsPattern * (1 + char '.' * digitsPattern)).matches' ↔ isUnsigned text = true := by
  rw [RegularExpression.matches'_mul, Language.mem_mul, isUnsigned_iff]
  constructor
  · rintro ⟨whole, hwhole, rest, hrest, rfl⟩
    refine ⟨whole, mem_digitsPattern.mp hwhole, ?_⟩
    obtain rfl | ⟨places, hplaces, rfl⟩ := mem_placesPattern.mp hrest
    · exact .inl (List.append_nil whole)
    · exact .inr ⟨places, hplaces, rfl⟩
  · rintro ⟨whole, hwhole, rfl | ⟨places, hplaces, rfl⟩⟩
    · exact ⟨text, mem_digitsPattern.mpr hwhole, [], mem_placesPattern.mpr (.inl rfl),
        List.append_nil text⟩
    · exact ⟨whole, mem_digitsPattern.mpr hwhole, _,
        mem_placesPattern.mpr (.inr ⟨places, hplaces, rfl⟩), rfl⟩

/-- A text is a numeric literal if it is a numeral, with or without a minus sign in front. -/
theorem isUnsigned_dropSign_iff : isUnsigned (dropSign text) = true ↔
    isUnsigned text = true ∨ ∃ rest, isUnsigned rest = true ∧ text = '-' :: rest := by
  by_cases hsign : text.head? = some '-'
  · obtain ⟨rest, rfl⟩ := List.head?_eq_some_iff.mp hsign
    have hnot : isUnsigned ('-' :: rest) ≠ true := fun h => head?_ne_of_isUnsigned h rfl
    simp [dropSign, hnot]
  · rw [dropSign_eq_self hsign]
    refine ⟨.inl, ?_⟩
    rintro (h | ⟨rest, -, rfl⟩)
    · exact h
    · exact absurd rfl hsign

end Literal

open Literal in
/-- A text is a numeric literal just if it matches the pattern of literals. -/
theorem isNumberLiteral_iff_matches {text : String} :
    isNumberLiteral text = true ↔ text.toList ∈ Literal.pattern.matches' := by
  rw [isNumberLiteral, isUnsigned_dropSign_iff, Literal.pattern, RegularExpression.matches'_mul,
    Language.mem_mul]
  constructor
  · rintro (h | ⟨rest, h, hsplit⟩)
    · exact ⟨[], mem_signPattern.mpr (.inl rfl), _, mem_unsignedPattern.mpr h, rfl⟩
    · exact ⟨['-'], mem_signPattern.mpr (.inr rfl), _, mem_unsignedPattern.mpr h, hsplit.symm⟩
  · rintro ⟨sign, hsign, rest, hrest, hsplit⟩
    have hrest := mem_unsignedPattern.mp hrest
    rw [← hsplit]
    obtain rfl | rfl := mem_signPattern.mp hsign
    · exact .inl hrest
    · exact .inr ⟨rest, hrest, rfl⟩

/-! ## Digits and points in a line -/

namespace Literal

variable {text : List Char}

/-- A numeral may go on with a digit. -/
theorem isUnsigned_concat (h : isUnsigned text = true) {c : Char} (hc : c.isDigit = true) :
    isUnsigned (text ++ [c]) = true := by
  have hdigits : ∀ {digits : List Char}, isDigits digits = true →
      isDigits (digits ++ [c]) = true := by
    intro digits hdigits
    rw [isDigits_iff] at hdigits ⊢
    refine ⟨by simp, fun d hd => ?_⟩
    obtain hd | hd := List.mem_append.mp hd
    · exact hdigits.2 d hd
    · rwa [List.mem_singleton.mp hd]
  rw [isUnsigned_iff] at h ⊢
  obtain ⟨whole, hwhole, rfl | ⟨places, hplaces, rfl⟩⟩ := h
  · exact ⟨_, hdigits hwhole, .inl rfl⟩
  · exact ⟨whole, hwhole, .inr ⟨_, hdigits hplaces, by rw [List.append_assoc]; rfl⟩⟩

end Literal

namespace Lexeme

/-- A point is no word of its own. -/
theorem words_point (tokens : List Token) :
    words (.char '.' :: tokens) = .stray '.' :: words tokens := by
  rw [words_of_alone (by decide) (alone_of_heads (by decide))]
  have hletter : Text.isAlphabetic '.' = false := by decide +kernel
  have hofChar : ofChar '.' = .stray '.' := by
    rw [ofChar_of_unnamed (by decide) (by rintro (_ | _ | _) <;> decide), hletter]
    rfl
  rw [hofChar]

/-- What stands in front of a text of digits and points is a numeral, and what is left behind it is
nothing, or it begins with a point. -/
theorem exists_numeral {text : List Char} (htext : ∀ c ∈ text, c.isDigit = true ∨ c = '.')
    (h : digits (text.map .char) ≠ []) :
    ∃ front rest, text = front ++ rest ∧ Literal.isUnsigned front = true ∧
      words (text.map .char) =
        .operand (.ok (.number (String.ofList front))) :: words (rest.map .char) ∧
      (rest = [] ∨ ∃ more, rest = '.' :: more) ∧ (Literal.isUnsigned text = true → rest = []) := by
  obtain ⟨hunsigned, after, hafter⟩ := isUnsigned_numeral h
  obtain ⟨front, rest, rfl, hfront, rfl⟩ := List.map_eq_append_iff.mp hafter
  have hnumeral : numeral ((front ++ rest).map .char) = front :=
    ((List.map_inj_right fun _ _ => Token.char.inj).mp hfront).symm
  have hwords := words_of_digits h
  rw [hnumeral] at hunsigned hwords
  rw [List.map_append, List.drop_left' (List.length_map ..), ← List.map_append] at hwords
  refine ⟨front, rest, rfl, hunsigned, hwords, ?_, fun hwhole => ?_⟩
  · cases rest with
    | nil => exact .inl rfl
    | cons c rest =>
      obtain hc | rfl := htext c (List.mem_append_right front List.mem_cons_self)
      · -- with one more digit there would be a longer numeral in front
        have hlength := length_le_numeral (Literal.isUnsigned_concat hunsigned hc)
          (rest.map .char)
        rw [← List.map_append, List.append_assoc, List.singleton_append, hnumeral,
          List.length_append, List.length_singleton] at hlength
        omega
      · exact .inr ⟨rest, rfl⟩
  · have hlength := length_le_numeral hwhole []
    rw [List.append_nil, hnumeral, List.length_append] at hlength
    exact List.length_eq_zero_iff.mp (by omega)

/-- A text of digits and points is read as a number if it is a numeral, and otherwise one of its
points is unexpected. -/
theorem term_of_digits_and_points {text : List Char} (hne : text ≠ [])
    (htext : ∀ c ∈ text, c.isDigit = true ∨ c = '.') :
    term (words (text.map .char)) =
      if Literal.isUnsigned text then .ok (.number (String.ofList text))
      else .error (.cannotParse (.unexpected '.')) := by
  by_cases hdigits : digits (text.map .char) = []
  · -- there is a point in front
    cases text with
    | nil => exact absurd rfl hne
    | cons c text =>
      have hc : c.isDigit = false := by
        rw [Bool.eq_false_iff]
        intro hc
        rw [List.map_cons, digits, Token.digit?, if_pos hc] at hdigits
        cases hdigits
      obtain hdigit | rfl := htext c List.mem_cons_self
      · rw [hc] at hdigit
        cases hdigit
      · have hunsigned : Literal.isUnsigned ('.' :: text) = false := rfl
        rw [List.map_cons, words_point, hunsigned]
        rfl
  · obtain ⟨front, rest, rfl, hunsigned, hwords, hrest, hwhole⟩ := exists_numeral htext hdigits
    rw [hwords]
    obtain rfl | ⟨more, rfl⟩ := hrest
    · rw [List.append_nil, hunsigned]
      rfl
    · have hnot : Literal.isUnsigned (front ++ '.' :: more) = false :=
        Bool.eq_false_iff.mpr fun h => List.cons_ne_nil _ _ (hwhole h)
      rw [hnot, List.map_cons, words_point]
      rfl

end Lexeme

namespace Line

variable {text : List Char}

/-- Ordinary characters are read as they are. -/
theorem formula_atoms (hne : text ≠ []) (htext : ∀ c ∈ text, Lexeme.Ordinary c) :
    Line.formula (text.map .atom) = Token.sum (text.map .char) := by
  rw [Line.formula, Token.formula, Glyph.tokens_atoms htext,
    (Spells.groups_ordinary htext).group_eq]
  cases text with
  | nil => exact absurd rfl hne
  | cons c text => exact congrArg Token.sum (Span.tokens_single _)

/-- A line of digits and points denotes a number if it is a numeral, and otherwise nothing. -/
theorem formula_of_digits_and_points (hne : text ≠ [])
    (htext : ∀ c ∈ text, c.isDigit = true ∨ c = '.') :
    Line.formula (text.map .atom) =
      if Literal.isUnsigned text then .ok (.number (String.ofList text))
      else .error (.cannotParse (.unexpected '.')) := by
  have hplain : ∀ c ∈ text, Lexeme.Ordinary c ∧ (Token.char c).isOperator = false := by
    intro c hc
    obtain hdigit | rfl := htext c hc
    · exact @Literal.of_isDigit
        (fun c => Lexeme.Ordinary c ∧ (Token.char c).isOperator = false) _ (by decide) c hdigit
    · decide
  have hoperator : ∀ token ∈ text.map Token.char, token.isOperator = false :=
    List.forall_mem_map.mpr fun c hc => (hplain c hc).2
  have htimes : .char '*' ∉ text.map Token.char := fun hmem => by cases hoperator _ hmem
  rw [formula_atoms hne fun c hc => (hplain c hc).1,
    Token.sum_of_uncut_false (Token.uncut_of_not_isOperator hoperator) htimes,
    Lexeme.term_of_digits_and_points hne htext]

end Line

/-! ## Plain characters which are typed -/

namespace Editor

open Edit

variable {editor : Editor} {expression : NodeId} {index : Nat} {text : List Char}

/-- A plain character which is typed is added behind the cursor, and the cursor goes behind it. -/
theorem after_insertChar {c : Char} (hc : Stroke.ofChar c = .ok (.atom c)) {id : NodeId}
    {made : Tree} (hposition : editor.tree.position editor.cursor = .ok (expression, index))
    (hadd : (Tree.add editor.cursor (.atom c)).run editor.tree = .ok id made)
    (hsymbol : made.symbol id = .ok (.atom c)) :
    (Call.insertChar c).edit.after editor = ⟨made, id, editor.settings⟩ := by
  have hcollect : (if Stroke.atom c = .fraction ∧ editor.settings.fillsNumerator
      then onTree (Tree.fillNumerator id) else pure false : Edit Editor Bool).run
        { editor with tree := made } = .ok false { editor with tree := made } := rfl
  have hinsert : (insert (.atom c)).run editor = .ok id ⟨made, id, editor.settings⟩ :=
    run_insert_of hposition hadd hsymbol hcollect rfl
  have hrun : (insertChar c).run editor = .ok id ⟨made, id, editor.settings⟩ :=
    run_ofExcept_bind_eq_ok.mpr ⟨.atom c, hc, hinsert⟩
  exact (after_map _ _ editor).trans (after_of_ok hrun)

/-- Plain characters which are typed one by one are put into the tree as a line of characters. -/
theorem exists_typed (h : editor.tree.WellFormed)
    (hposition : editor.tree.position editor.cursor = .ok (expression, index))
    (htext : ∀ c ∈ text, Stroke.ofChar c = .ok (.atom c)) :
    ∃ last grown, (Tree.placeLine editor.cursor (text.map .atom)).run editor.tree =
        .ok last grown ∧ editor.typed text = ⟨grown, last, editor.settings⟩ := by
  induction text generalizing editor index with
  | nil => exact ⟨editor.cursor, editor.tree, by rw [List.map_nil, Tree.placeLine]; rfl, rfl⟩
  | cons c text ih =>
    obtain ⟨hc, htext⟩ := List.forall_mem_cons.mp htext
    obtain ⟨symbol, hcursor⟩ := h.node?_of_position hposition
    obtain ⟨owner, front, back, hexpression, -⟩ := h.exists_split hcursor
    obtain ⟨made, hadd, hmade, -, -, hid, -⟩ := h.run_add hexpression (.atom c)
    obtain ⟨place, hplace⟩ := hmade.exists_position hid
    have hafter := after_insertChar hc hposition hadd (Tree.symbol_of_node? hid)
    obtain ⟨last, grown, hrun, htyped⟩ :=
      @ih ⟨made, editor.tree.nextId, editor.settings⟩ place hmade hplace htext
    refine ⟨last, grown, ?_, ?_⟩
    · rw [List.map_cons, Tree.placeLine, Tree.placeGlyph]
      exact run_bind_eq_ok.mpr ⟨_, made, hadd, hrun⟩
    · rw [typed, List.foldl_cons, hafter]
      exact htyped

/-- An empty field into which plain characters are typed shows these characters. -/
theorem shows_typed (settings : Settings) (htext : ∀ c ∈ text, Stroke.ofChar c = .ok (.atom c)) :
    ((new settings).typed text).tree.Shows Tree.root (text.map .atom) := by
  have hposition : (new settings).tree.position home = .ok (Tree.root, 0) := rfl
  obtain ⟨last, grown, hrun, htyped⟩ :=
    @exists_typed (new settings) _ _ _ Tree.wellFormed_empty hposition htext
  obtain ⟨_, _, hplace, -, -, hline, items, hitems⟩ :=
    Tree.wellFormed_empty.fill (Tree.places (text.map .atom)) (Tree.node?_empty Tree.root)
  obtain ⟨rfl, rfl⟩ := EStateM.Result.ok.inj (hrun.symm.trans hplace)
  rw [htyped]
  exact ⟨⟨items, Tree.items_of_node? hitems⟩, hline⟩

/-- Digits and points are plain characters. -/
theorem ofChar_of_digit_or_point {c : Char} (h : c.isDigit = true ∨ c = '.') :
    Stroke.ofChar c = .ok (.atom c) := by
  obtain hdigit | rfl := h
  · exact @Literal.of_isDigit (fun c => Stroke.ofChar c = .ok (.atom c)) _ (by decide +kernel) c
      hdigit
  · rfl

/-- The two ways in which numerals are recognized agree. A text is a numeric literal just if it
matches `-?[0-9]+(\.[0-9]+)?`. When a text of digits and points is typed into an empty field, all of
it is shown, and the field denotes the number with this very text if it is a literal. Otherwise the
field cannot be read, since one of the points is unexpected. -/
theorem formula_typed_numeral :
    (∀ text : String, isNumberLiteral text = true ↔ text.toList ∈ Literal.pattern.matches') ∧
    ∀ (settings : Settings) (text : String), text ≠ "" →
      (∀ c ∈ text.toList, c.isDigit = true ∨ c = '.') →
        ((new settings).typed text.toList).tree.line Tree.root = text.toList.map .atom ∧
        ((new settings).typed text.toList).formula =
          if isNumberLiteral text then .ok (.number text)
          else .error (.cannotParse (.unexpected '.')) := by
  refine ⟨fun _ => isNumberLiteral_iff_matches, fun settings text hne htext => ?_⟩
  have hshows := shows_typed settings fun c hc => ofChar_of_digit_or_point (htext c hc)
  refine ⟨hshows.2, ?_⟩
  have hhead : text.toList.head? ≠ some '-' := by
    intro hhead
    obtain hdigit | hpoint := htext '-' (List.mem_of_head? hhead)
    · cases hdigit
    · cases hpoint
  have hnil : text.toList ≠ [] := fun hnil => hne (String.toList_eq_nil_iff.mp hnil)
  rw [formula, hshows.formula_eq, Line.formula_of_digits_and_points hnil htext, isNumberLiteral,
    Literal.dropSign_eq_self hhead, String.ofList_toList]

/-- What is typed as `007.50` denotes a number, and what is typed as `1.5.` cannot be read. -/
theorem formula_typed_numeral_points :
    "007.50".toList ∈ Literal.pattern.matches' ∧
      ((new {}).typed "007.50".toList).formula = .ok (.number "007.50") ∧
      "1.5.".toList ∉ Literal.pattern.matches' ∧
      ((new {}).typed "1.5.".toList).formula = .error (.cannotParse (.unexpected '.')) := by
  obtain ⟨hliteral, htyped⟩ := formula_typed_numeral
  have hplain : ∀ text : String, text.toList.all (fun c => c.isDigit || c = '.') = true →
      ∀ c ∈ text.toList, c.isDigit = true ∨ c = '.' := by
    intro text hall c hc
    simpa using List.all_eq_true.mp hall c hc
  have hnumber : isNumberLiteral "007.50" = true := by decide
  have hother : isNumberLiteral "1.5." = false := by decide
  have hformula := (htyped {} "007.50" (by decide) (hplain _ (by decide))).2
  have hrefused := (htyped {} "1.5." (by decide) (hplain _ (by decide))).2
  rw [hnumber] at hformula
  rw [hother] at hrefused
  refine ⟨(hliteral _).mp hnumber, hformula, fun hmatches => ?_, hrefused⟩
  rw [(hliteral _).mpr hmatches] at hother
  cases hother

end Editor

end FormulaEditor
