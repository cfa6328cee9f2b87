import FormulaEditor.Proofs.Formula.Line
import FormulaEditor.Proofs.Formula.Normal
import FormulaEditor.Tree.Formula

/-!
# Formulas put into a tree glyph by glyph

What is created symbol by symbol for a formula is the line of the formula, glyph after glyph
(`Tree.emits`), so that a formula which has been checked does not fail where it comes to a wrong
number of operands. Typesetting a formula is its check before its line is put in
(`Tree.typeset_eq`).
-/

set_option autoImplicit false

namespace FormulaEditor.Tree

/-! ## Lines -/

mutual

/-- Creates a glyph after a symbol, with everything inside it, and answers its name. -/
def placeGlyph (anchor : NodeId) : Glyph → Edit Tree NodeId
  | .atom c => add anchor (.atom c)
  | .bracket side => add anchor (.bracket side)
  | .bar => add anchor .bar
  | .fraction numerator denominator => do
    let id ← add anchor .fraction
    let _ ← placeLine (← Edit.look (·.slotStart id 0)) numerator
    let _ ← placeLine (← Edit.look (·.slotStart id 1)) denominator
    return id
  | .superscript exponent => do
    let id ← add anchor .superscript
    let _ ← placeLine (← Edit.look (·.slotStart id 0)) exponent
    return id
  | .radical radicand => do
    let id ← add anchor .radical
    let _ ← placeLine (← Edit.look (·.slotStart id 0)) radicand
    return id

/-- Creates a line after a symbol, and answers its last symbol, or the given one if it is empty.
-/
def placeLine (anchor : NodeId) : List Glyph → Edit Tree NodeId
  | [] => return anchor
  | glyph :: glyphs => do placeLine (← placeGlyph anchor glyph) glyphs

end

/-- A line is placed part by part, each one behind the last symbol of the part before. -/
theorem placeLine_append (anchor : NodeId) (front back : Line) :
    placeLine anchor (front ++ back) =
      placeLine anchor front >>= fun last => placeLine last back := by
  induction front generalizing anchor with
  | nil => rw [List.nil_append, placeLine, pure_bind]
  | cons glyph glyphs ih => simp only [List.cons_append, placeLine, bind_assoc, ih]

/-! ## Content which is created symbol by symbol -/

/-- What is created after any symbol is a line. -/
def Emits (content : NodeId → Edit Tree NodeId) (line : Line) : Prop :=
  ∀ anchor, content anchor = placeLine anchor line

variable {content more : NodeId → Edit Tree NodeId} {line rest : Line}

/-- Doing nothing emits nothing. -/
theorem emits_pure : Emits pure [] :=
  fun anchor => by rw [placeLine]

/-- What is created next goes behind. -/
theorem Emits.append (h : Emits content line) (hmore : Emits more rest) :
    Emits (fun anchor => content anchor >>= more) (line ++ rest) := by
  intro anchor
  rw [placeLine_append, ← h anchor]
  exact bind_congr hmore

/-- A glyph which is created after a symbol is a line of its own. -/
theorem emits_glyph {glyph : Glyph} (h : ∀ anchor, content anchor = placeGlyph anchor glyph) :
    Emits content [glyph] := by
  intro anchor
  simp only [placeLine, bind_pure]
  exact h anchor

/-- Adding a character emits it. -/
theorem emits_atom (c : Char) : Emits (add · (.atom c)) [.atom c] :=
  emits_glyph fun anchor => by rw [placeGlyph]

/-- Adding a bracket emits it. -/
theorem emits_bracket (side : Side) : Emits (add · (.bracket side)) [.bracket side] :=
  emits_glyph fun anchor => by rw [placeGlyph]

/-- Adding a bar emits it. -/
theorem emits_bar : Emits (add · .bar) [.bar] :=
  emits_glyph fun anchor => by rw [placeGlyph]

/-- Adding the characters of a text emits them. -/
theorem emits_atoms (text : List Char) : Emits (addAtoms · text) (text.map .atom) := by
  induction text with
  | nil => exact emits_pure
  | cons c cs ih => exact (emits_atom c).append ih

/-- What is emitted between brackets is the content between brackets. -/
theorem Emits.bracketed (h : Emits content line) :
    Emits (emitBracketedIf true content) (Formula.bracketed line) :=
  (emits_bracket .opening).append (h.append (emits_bracket .closing))

/-- What is emitted between brackets if they are needed is the content with brackets if needed. -/
theorem Emits.bracketedIf (h : Emits content line) (needed : Bool) :
    Emits (emitBracketedIf needed content) (Formula.bracketedIf needed line) := by
  cases needed with
  | false => exact h
  | true => exact h.bracketed

/-- A superscript which is filled with a content emits the content as an exponent. -/
theorem Emits.superscript (h : Emits content line) :
    Emits (emitFilled .superscript content) [.superscript line] :=
  emits_glyph fun anchor => by
    simp only [emitFilled, placeGlyph, h _]

/-- A root which is filled with a content emits the content as its radicand. -/
theorem Emits.radical (h : Emits content line) :
    Emits (emitFilled .radical content) [.radical line] :=
  emits_glyph fun anchor => by
    simp only [emitFilled, placeGlyph, h _]

/-! ## Formulas -/

/-- Terms which are emitted one by one are emitted as terms, each with its sign. -/
theorem emits_terms (sign : Char) {terms : List Formula}
    (h : ∀ term ∈ terms, Emits (emit term) term.typeset) :
    Emits (emitTerms sign terms) (Formula.typesetTerms sign terms) := by
  induction terms with
  | nil =>
    intro anchor
    rw [emitTerms, Formula.typesetTerms, placeLine]
  | cons term terms ih =>
    obtain ⟨hterm, hterms⟩ := List.forall_mem_cons.mp h
    intro anchor
    rw [emitTerms, Formula.typesetTerms]
    exact (emits_atom sign).append ((hterm.bracketedIf _).append (ih hterms)) anchor

/-- Factors which are emitted one by one are emitted as factors, in brackets where needed. -/
theorem emits_factors {first : Formula} {others : List Formula}
    (h : ∀ factor ∈ first :: others, Emits (emit factor) factor.typeset) :
    Emits (emitFactors (first :: others)) (Formula.typesetFactors (first :: others)) := by
  induction others generalizing first with
  | nil =>
    intro anchor
    rw [emitFactors, Formula.typesetFactors]
    exact (h first List.mem_cons_self).bracketedIf _ anchor
  | cons second others ih =>
    obtain ⟨hfirst, hothers⟩ := List.forall_mem_cons.mp h
    intro anchor
    rw [emitFactors, Formula.typesetFactors]
    · exact (hfirst.bracketedIf _).append ((emits_atom '*').append (ih hothers)) anchor
    · exact List.cons_ne_nil _ _
    · exact List.cons_ne_nil _ _

/-- A sum or a difference is emitted as it is typeset, if its terms are. -/
theorem emits_sum {op : Operator} (hop : op = .plus ∨ op = .minus) {first second : Formula}
    {others : List Formula}
    (h : ∀ term ∈ first :: second :: others, Emits (emit term) term.typeset) :
    Emits (emit (.apply op (first :: second :: others)))
      (Formula.typeset (.apply op (first :: second :: others))) := by
  obtain ⟨hfirst, hothers⟩ := List.forall_mem_cons.mp h
  intro anchor
  obtain rfl | rfl := hop
  · rw [emit, Formula.typeset]
    exact hfirst.append (emits_terms '+' hothers) anchor
  · rw [emit, Formula.typeset]
    · exact hfirst.append (emits_terms '-' hothers) anchor
    · rintro ⟨⟩
    · rintro ⟨⟩

/-- A root is created without its degree. -/
theorem emits_root {operands : List Formula} {radicand : Formula}
    (hoperands : operands = [radicand] ∨ ∃ degree, operands = [degree, radicand])
    (h : Emits (emit radicand) radicand.typeset) :
    Emits (emit (.apply .root operands)) (Formula.typeset (.apply .root operands)) := by
  intro anchor
  rw [emit, Formula.typeset_root hoperands, ← h.radical anchor]
  obtain rfl | ⟨degree, rfl⟩ := hoperands
  · rw [emitRoot]
  · rw [emitRoot, emitRoot]
    exact List.cons_ne_nil _ _

/-- A fraction is emitted as it is typeset, if its numerator and its denominator are. -/
theorem emits_fraction {numerator denominator : Formula}
    (htop : Emits (emit numerator) numerator.typeset)
    (hbottom : Emits (emit denominator) denominator.typeset) :
    Emits (emit (.apply .divide [numerator, denominator]))
      (Formula.typeset (.apply .divide [numerator, denominator])) := by
  rw [Formula.typeset]
  exact emits_glyph fun anchor => by
    simp only [emit, placeGlyph, htop _, hbottom _]

/-- A power is emitted as it is typeset, if its base and its exponent are. -/
theorem emits_power {base exponent : Formula} (hbase : Emits (emit base) base.typeset)
    (hexponent : Emits (emit exponent) exponent.typeset) :
    Emits (emit (.apply .power [base, exponent]))
      (Formula.typeset (.apply .power [base, exponent])) := by
  intro anchor
  rw [emit, Formula.typeset]
  exact (hbase.bracketedIf _).append hexponent.superscript anchor

/-- A function is emitted as it is typeset, if its operand is. -/
theorem emits_function {op : Operator} (hop : op ∈ Operator.functions) {operand : Formula}
    (h : Emits (emit operand) operand.typeset) :
    Emits (emit (.apply op [operand])) (Formula.typeset (.apply op [operand])) := by
  have hemit : ∀ anchor, emit (.apply op [operand]) anchor =
      addAtoms anchor op.tag.toList >>= emitBracketedIf true (emit operand) := by
    intro anchor
    cases op with
    | sin | cos | tan | ln =>
      rw [emit]
      · rfl
      all_goals rintro ⟨⟩
    | _ => exact absurd hop (by decide)
  intro anchor
  rw [hemit, Formula.typeset_function hop]
  exact (emits_atoms _).append h.bracketed anchor

/-- What can be typeset is created as its line. -/
theorem emits {formula : Formula} (h : formula.Typesettable) :
    Emits (emit formula) formula.typeset := by
  induction h with
  | number _ =>
    intro anchor
    rw [emit, Formula.typeset]
    exact emits_atoms _ anchor
  | identifier _ =>
    intro anchor
    rw [emit, Formula.typeset]
    exact emits_atom _ anchor
  | constant _ =>
    intro anchor
    rw [emit, Formula.typeset]
    exact emits_atom _ anchor
  | sum hop _ ih => exact emits_sum hop ih
  | product _ ih =>
    intro anchor
    rw [emit, Formula.typeset]
    exact emits_factors ih anchor
  | negation _ ih =>
    intro anchor
    rw [emit, Formula.typeset]
    exact (emits_atom '-').append (ih.bracketedIf _) anchor
  | fraction _ _ htop hbottom => exact emits_fraction htop hbottom
  | power _ _ hbase hexponent => exact emits_power hbase hexponent
  | radical _ ih => exact emits_root (.inl rfl) ih
  | root _ _ ih => exact emits_root (.inr ⟨_, rfl⟩) ih
  | abs _ ih =>
    intro anchor
    rw [emit, Formula.typeset]
    exact emits_bar.append (ih.append emits_bar) anchor
  | function hop _ ih => exact emits_function hop ih

/-- A formula is put into a tree by putting its line in, once it has passed its check. -/
theorem typeset_eq (anchor : NodeId) (formula : Formula) :
    typeset anchor formula = (do
      Edit.ofExcept (formula.typesettable.mapError .invalidValue)
      let _ ← Edit.look (·.position anchor)
      placeLine anchor formula.typeset) := by
  rw [typeset]
  cases h : formula.typesettable with
  | error fault => rfl
  | ok _ =>
    simp only [emits (Formula.typesettable_of_eq_ok h) anchor]

end FormulaEditor.Tree
