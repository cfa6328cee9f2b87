import FormulaEditor.Proofs.Formula.Normal
import FormulaEditor.Proofs.Line.Spelling

/-!
# Reading what has been typeset

The line of a formula spells words from which the grammar derives the normal form of the formula
(`Formula.Typesets`). How tightly these words hold together is told by the outermost operator: only
those of a sum are no product, only those of a sum or a product are no signed term, and those of a
formula to which a power binds are an operand with its exponents. So brackets stand exactly where
the words would otherwise be grouped differently, and the line is read as the normal form
(`Formula.formula_typeset`).
-/

set_option autoImplicit false

namespace FormulaEditor.Formula

-- Lines and normal forms are computed throughout.
attribute [local simp] typeset normal

open Lexeme (Sum Product Signed Term powerWords powerOf)

/-- The line of a formula spells words which denote its normal form, and which hold together as
tightly as its outermost operator. -/
structure Typesets (formula : Formula) (words : List Lexeme) : Prop where
  spells : Line.Spells formula.typeset words
  sum : Sum words formula.normal
  product : formula.isSum = false → Product words formula.normal
  signed : formula.isSum = false → formula.isProduct = false → Signed words formula.normal
  power : formula.bindsPower = true →
    ∃ base exponents, words = powerWords base exponents ∧ powerOf base exponents = formula.normal

/-- An operand is a term, and so it may stand behind a sign. -/
theorem signed_operand (value : Formula) : Signed [.operand (.ok value)] value :=
  .term (.operand value [])

namespace Typesets

variable {formula : Formula} {words : List Lexeme}

/-- Words which are an operand with its exponents hold together in every way. -/
theorem of_power {base : Formula} {exponents : List Formula}
    (spells : Line.Spells formula.typeset (powerWords base exponents))
    (h : powerOf base exponents = formula.normal) :
    Typesets formula (powerWords base exponents) := by
  have hsigned : Signed (powerWords base exponents) formula.normal :=
    h ▸ .term (.operand base exponents)
  exact ⟨spells, .product (.signed hsigned), fun _ => .signed hsigned, fun _ _ => hsigned,
    fun _ => ⟨base, exponents, rfl, h⟩⟩

/-- A single operand holds together in every way. -/
theorem of_operand (spells : Line.Spells formula.typeset [.operand (.ok formula.normal)]) :
    Typesets formula [.operand (.ok formula.normal)] :=
  @of_power _ formula.normal [] spells rfl

/-- Between brackets the line is an operand. -/
theorem bracketed (h : Typesets formula words) :
    Line.Spells (bracketed formula.typeset) [.operand (.ok formula.normal)] :=
  h.spells.bracketed (Lexeme.sum_eq_ok_iff.mpr h.sum)

/-- A sum between brackets is a product, as is everything else. -/
theorem asProduct (h : Typesets formula words) :
    ∃ words, Line.Spells (bracketedIf formula.isSum formula.typeset) words ∧
      Product words formula.normal := by
  cases hsum : formula.isSum with
  | true => exact ⟨_, h.bracketed, .signed (signed_operand _)⟩
  | false => exact ⟨words, h.spells, h.product hsum⟩

/-- A formula which is typeset can stand behind a sign, in brackets if it is a sum or a product. -/
theorem asSigned (h : Typesets formula words) :
    ∃ words, Line.Spells (bracketedIf (formula.isSum || formula.isProduct) formula.typeset) words ∧
      Signed words formula.normal := by
  cases hneeded : formula.isSum || formula.isProduct with
  | true => exact ⟨_, h.bracketed, signed_operand _⟩
  | false =>
    rw [Bool.or_eq_false_iff] at hneeded
    exact ⟨words, h.spells, h.signed hneeded.1 hneeded.2⟩

/-- What a power does not bind to is between brackets an operand. -/
theorem asBase (h : Typesets formula words) :
    ∃ base exponents, Line.Spells (bracketedIf (!formula.bindsPower) formula.typeset)
      (powerWords base exponents) ∧ powerOf base exponents = formula.normal := by
  cases hbinds : formula.bindsPower with
  | true =>
    obtain ⟨base, exponents, rfl, hvalue⟩ := h.power hbinds
    exact ⟨base, exponents, h.spells, hvalue⟩
  | false => exact ⟨formula.normal, [], h.bracketed, rfl⟩

end Typesets

/-! ## Sums and products -/

/-- Further terms of a sum are added to or subtracted from the first ones. -/
theorem spells_terms {op : Operator} {c : Char}
    (hop : (op = .plus ∧ c = '+') ∨ (op = .minus ∧ c = '-')) {terms : List Formula}
    (hterms : ∀ term ∈ terms, ∃ words, Typesets term words) {line : Line} {words : List Lexeme}
    {value : Formula} (hline : Line.Spells line words) (hvalue : Sum words value) :
    ∃ words, Line.Spells (line ++ typesetTerms c terms) words ∧
      Sum words ((terms.map normal).foldl (.binary op) value) := by
  induction terms generalizing line words value with
  | nil =>
    rw [typesetTerms, List.append_nil]
    exact ⟨words, hline, hvalue⟩
  | cons term terms ih =>
    obtain ⟨_, hterm⟩ := hterms term List.mem_cons_self
    obtain ⟨more, hmore, hproduct⟩ := hterm.asProduct
    -- the invariant is that the line so far spells a sum: the next term makes it a longer one
    have hnext : Line.Spells (line ++ .atom c :: bracketedIf term.isSum term.typeset)
        (words ++ Lexeme.ofChar c :: more) ∧
          Sum (words ++ Lexeme.ofChar c :: more) (.binary op value term.normal) := by
      obtain ⟨rfl, rfl⟩ | ⟨rfl, rfl⟩ := hop
      · exact ⟨hline.append_sign (by decide) hmore, .plus hvalue hproduct⟩
      · exact ⟨hline.append_sign (by decide) hmore, .minus hvalue hproduct⟩
    have hrest := ih (fun other hother => hterms other (List.mem_cons_of_mem _ hother)) hnext.1
      hnext.2
    rwa [List.append_assoc] at hrest

/-- Factors which are typeset one by one are spelled as the product of them. -/
theorem spells_factors {first : Formula} {others : List Formula}
    (h : ∀ factor ∈ first :: others, ∃ words, Typesets factor words) :
    ∃ words, Line.Spells (typesetFactors (first :: others)) words ∧
      Product words (nestRight first.normal (others.map normal)) := by
  induction others generalizing first with
  | nil =>
    obtain ⟨_, hfirst⟩ := h first List.mem_cons_self
    exact hfirst.asProduct
  | cons second others ih =>
    obtain ⟨_, hfirst⟩ := h first List.mem_cons_self
    obtain ⟨words, hspells, hsigned⟩ := hfirst.asSigned
    obtain ⟨more, hmore, hproduct⟩ :=
      ih fun factor hfactor => h factor (List.mem_cons_of_mem _ hfactor)
    refine ⟨words ++ Lexeme.ofChar '*' :: more, ?_, .times hsigned hproduct⟩
    rw [typesetFactors]
    · exact hspells.append_sign (by decide) hmore
    · rintro ⟨⟩

/-! ## One formula at a time -/

/-- A number is typeset as it is written, a negative one behind a minus sign. -/
theorem typesets_number {text : String} (h : isNumberLiteral text = true) :
    ∃ words, Typesets (.number text) words := by
  rw [isNumberLiteral] at h
  have hspells : typeset (.number text) = text.toList.map .atom := by rw [typeset]
  by_cases hsign : text.toList.head? = some '-'
  · obtain ⟨digits, hdigits⟩ := List.head?_eq_some_iff.mp hsign
    have hsigned : Signed [.minus, .operand (.ok (.number (String.ofList digits)))]
        (normal (.number text)) := normal_negative hdigits ▸ .minus (signed_operand _)
    rw [hdigits] at h hspells
    refine ⟨_, ?_, .product (.signed hsigned), fun _ => .signed hsigned, fun _ _ => hsigned, ?_⟩
    · rw [hspells]
      exact (Line.Spells.number h).minus
    · intro hbinds
      have hne : text.toList.head? ≠ some '-' := by simpa [bindsPower] using hbinds
      exact absurd hsign hne
  · rw [Literal.dropSign_eq_self hsign] at h
    have htext := Line.Spells.number h
    rw [String.ofList_toList, ← normal_number hsign, ← hspells] at htext
    exact ⟨_, .of_operand htext⟩

/-- A variable is typeset as its letter, which may be that of a constant. -/
theorem typesets_identifier {letter : Char} (h : Text.isAlphabetic letter = true) :
    ∃ words, Typesets (.identifier letter) words := by
  have hspells : typeset (.identifier letter) = [.atom letter] := by rw [typeset]
  refine ⟨_, .of_operand ?_⟩
  rw [hspells, normal]
  by_cases he : letter = 'e'
  · rw [if_pos he, he]
    exact Line.Spells.constant .exponentialE
  by_cases hpi : letter = 'π'
  · rw [if_neg he, if_pos hpi, hpi]
    exact Line.Spells.constant .pi
  · rw [if_neg he, if_neg hpi]
    refine Line.Spells.letter h fun name => ?_
    cases name with
    | pi => exact hpi
    | exponentialE => exact he
    | infinity => exact Text.ne_of_isAlphabetic h (by decide)

/-- Constants are typeset. -/
theorem typesets_constant (name : Constant) : ∃ words, Typesets (.constant name) words := by
  refine ⟨_, .of_operand ?_⟩
  rw [typeset, normal]
  exact Line.Spells.constant name

/-- A sum or a difference of at least two terms is typeset term by term. -/
theorem typesets_sum {op : Operator} (hop : op = .plus ∨ op = .minus)
    {first second : Formula} {others : List Formula}
    (h : ∀ term ∈ first :: second :: others, ∃ words, Typesets term words) :
    ∃ words, Typesets (.apply op (first :: second :: others)) words := by
  obtain ⟨words, hfirst⟩ := h first List.mem_cons_self
  have hothers : ∀ term ∈ second :: others, ∃ words, Typesets term words :=
    fun term hterm => h term (List.mem_cons_of_mem _ hterm)
  have hsum : isSum (.apply op (first :: second :: others)) = true := by
    obtain rfl | rfl := hop <;> simp [isSum]
  have hnormal : normal (.apply op (first :: second :: others)) =
      ((second :: others).map normal).foldl (.binary op) first.normal := by
    obtain rfl | rfl := hop
    · rw [normal_apply (by decide)]
      rfl
    · rw [normal_apply (by decide)]
      rfl
  have hall : ∃ words, Line.Spells (typeset (.apply op (first :: second :: others))) words ∧
      Sum words (((second :: others).map normal).foldl (.binary op) first.normal) := by
    obtain rfl | rfl := hop
    · rw [typeset]
      exact spells_terms (.inl ⟨rfl, rfl⟩) hothers hfirst.spells hfirst.sum
    · rw [typeset]
      · exact spells_terms (.inr ⟨rfl, rfl⟩) hothers hfirst.spells hfirst.sum
      · rintro ⟨⟩
  obtain ⟨words, hspells, hvalue⟩ := hall
  rw [← hnormal] at hvalue
  refine ⟨words, hspells, hvalue, ?_, ?_, ?_⟩
  · -- a sum is neither a signed term nor a term, and no power binds to it
    intro hnot
    rw [hsum] at hnot
    cases hnot
  · intro hnot
    rw [hsum] at hnot
    cases hnot
  · intro hbinds
    obtain rfl | rfl := hop <;> cases hbinds

/-- A negation is typeset if its operand is. -/
theorem typesets_negation {operand : Formula} {words : List Lexeme}
    (h : Typesets operand words) : ∃ words, Typesets (.apply .minus [operand]) words := by
  obtain ⟨words, hspells, hsigned⟩ := h.asSigned
  have hnormal : normal (.apply .minus [operand]) = .unary .minus operand.normal := by
    rw [normal_apply (by decide)]
    rfl
  have hminus : Signed (.minus :: words) (normal (.apply .minus [operand])) :=
    hnormal ▸ .minus hsigned
  refine ⟨.minus :: words, ?_, .product (.signed hminus), fun _ => .signed hminus,
    fun _ _ => hminus, nofun⟩
  rw [typeset]
  exact hspells.minus

/-- A product is typeset factor by factor. -/
theorem typesets_product {first second : Formula} {others : List Formula}
    (h : ∀ factor ∈ first :: second :: others, ∃ words, Typesets factor words) :
    ∃ words, Typesets (.apply .times (first :: second :: others)) words := by
  obtain ⟨words, hspells, hproduct⟩ := spells_factors h
  have hnormal : normal (.apply .times (first :: second :: others)) =
      nestRight first.normal ((second :: others).map normal) := by
    rw [normal_apply (by decide)]
    rfl
  rw [← hnormal] at hproduct
  refine ⟨words, ?_, .product hproduct, fun _ => hproduct, nofun, nofun⟩
  rw [typeset]
  exact hspells

/-- A fraction is typeset if its numerator and its denominator are. -/
theorem typesets_fraction {numerator denominator : Formula} {top bottom : List Lexeme}
    (htop : Typesets numerator top) (hbottom : Typesets denominator bottom) :
    ∃ words, Typesets (.apply .divide [numerator, denominator]) words := by
  refine ⟨_, .of_operand ?_⟩
  rw [typeset, normal_apply (by decide)]
  refine Line.Spells.operand ?_
  rw [Glyph.token, htop.spells.slot_eq (Lexeme.sum_eq_ok_iff.mpr htop.sum),
    hbottom.spells.slot_eq (Lexeme.sum_eq_ok_iff.mpr hbottom.sum)]
  rfl

/-- A power is typeset as its base with one more exponent. -/
theorem typesets_power {base exponent : Formula} {front raised : List Lexeme}
    (hbase : Typesets base front) (hexponent : Typesets exponent raised) :
    ∃ words, Typesets (.apply .power [base, exponent]) words := by
  obtain ⟨innermost, exponents, hspells, hvalue⟩ := hbase.asBase
  have hslot := hexponent.spells.slot_eq (Lexeme.sum_eq_ok_iff.mpr hexponent.sum)
  have hpower : powerWords innermost exponents ++ [.power (.ok exponent.normal)] =
      powerWords innermost (exponents ++ [exponent.normal]) := by
    rw [powerWords, powerWords, List.map_append]
    rfl
  have hnormal : normal (.apply .power [base, exponent]) =
      powerOf innermost (exponents ++ [exponent.normal]) := by
    have hfold : powerOf innermost (exponents ++ [exponent.normal]) =
        .binary .power (powerOf innermost exponents) exponent.normal := List.foldl_append
    rw [normal_apply (by decide), hfold, hvalue]
    rfl
  refine ⟨_, .of_power ?_ hnormal.symm⟩
  rw [typeset, ← hpower]
  exact hspells.superscript hslot

/-- A root is typeset if its radicand is, whether a degree is given or not. -/
theorem typesets_root {operands : List Formula} {radicand : Formula} {words : List Lexeme}
    (hoperands : operands = [radicand] ∨ ∃ degree, operands = [degree, radicand])
    (h : Typesets radicand words) : ∃ words, Typesets (.apply .root operands) words := by
  have hslot := h.spells.slot_eq (Lexeme.sum_eq_ok_iff.mpr h.sum)
  have hnormal : normal (.apply .root operands) = .squareRoot radicand.normal := by
    obtain rfl | ⟨degree, rfl⟩ := hoperands <;> rw [normal]
  refine ⟨_, .of_operand ?_⟩
  rw [typeset_root hoperands, hnormal]
  refine Line.Spells.operand ?_
  rw [Glyph.token, hslot]
  rfl

/-- An absolute value is typeset if its operand is. -/
theorem typesets_abs {operand : Formula} {words : List Lexeme} (h : Typesets operand words) :
    ∃ words, Typesets (.apply .abs [operand]) words := by
  refine ⟨_, .of_operand ?_⟩
  rw [typeset, normal_apply (by decide)]
  exact h.spells.bars (Lexeme.sum_eq_ok_iff.mpr h.sum)

/-- A function is typeset as its name before its operand between brackets. -/
theorem typesets_function {op : Operator} (hop : op ∈ Operator.functions) {operand : Formula}
    {words : List Lexeme} (h : Typesets operand words) :
    ∃ words, Typesets (.apply op [operand]) words := by
  have hnormal : normal (.apply op [operand]) = .unary op operand.normal := by
    rw [normal_apply]
    · cases op <;> rfl
    · rintro rfl
      exact absurd hop (by decide)
  have hterm : Signed [.function op, .operand (.ok operand.normal)]
      (normal (.apply op [operand])) :=
    hnormal ▸ .term (.function (.operand operand.normal []))
  refine ⟨_, ?_, .product (.signed hterm), fun _ => .signed hterm, fun _ _ => hterm, ?_⟩
  · rw [typeset_function hop]
    exact h.spells.function hop (Lexeme.sum_eq_ok_iff.mpr h.sum)
  · intro hbinds
    cases op with
    | sin | cos | tan | ln => cases hbinds
    | _ => exact absurd hop (by decide)

/-! ## Every formula -/

/-- Whatever can be typeset spells words which denote its normal form. -/
theorem exists_typesets {formula : Formula} (h : formula.typesettable = .ok ()) :
    ∃ words, Typesets formula words := by
  replace h := typesettable_of_eq_ok h
  induction h with
  | number hliteral => exact typesets_number hliteral
  | identifier hletter => exact typesets_identifier hletter
  | constant name => exact typesets_constant name
  | sum hop _ ih => exact typesets_sum hop ih
  | product _ ih => exact typesets_product ih
  | negation _ ih =>
    obtain ⟨words, hwords⟩ := ih
    exact typesets_negation hwords
  | fraction _ _ htop hbottom =>
    obtain ⟨top, htop⟩ := htop
    obtain ⟨bottom, hbottom⟩ := hbottom
    exact typesets_fraction htop hbottom
  | power _ _ hbase hexponent =>
    obtain ⟨front, hbase⟩ := hbase
    obtain ⟨raised, hexponent⟩ := hexponent
    exact typesets_power hbase hexponent
  | radical _ ih =>
    obtain ⟨words, hwords⟩ := ih
    exact typesets_root (.inl rfl) hwords
  | root _ _ ih =>
    obtain ⟨words, hwords⟩ := ih
    exact typesets_root (.inr ⟨_, rfl⟩) hwords
  | abs _ ih =>
    obtain ⟨words, hwords⟩ := ih
    exact typesets_abs hwords
  | function hop _ ih =>
    obtain ⟨words, hwords⟩ := ih
    exact typesets_function hop hwords

/-- The line of whatever can be typeset denotes its normal form. -/
theorem formula_typeset {formula : Formula} (h : formula.typesettable = .ok ()) :
    Line.formula formula.typeset = .ok formula.normal := by
  obtain ⟨words, hwords⟩ := exists_typesets h
  exact hwords.spells.formula_eq.trans (Lexeme.sum_eq_ok_iff.mpr hwords.sum)

end FormulaEditor.Formula
