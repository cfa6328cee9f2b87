import FormulaEditor.Line.Formula
import FormulaEditor.Proofs.Formula.Canonical
import FormulaEditor.Proofs.Line.Derivation
import FormulaEditor.Proofs.Line.Grouping
import FormulaEditor.Proofs.Line.Lexing

/-!
# What lines denote

Only canonical formulas are read from a line (`Line.canonical_of_formula`). Each stage keeps this:
the words which are cut from tokens stand for canonical formulas, the grammar makes canonical
formulas of such words, and so what is inside a fence or a glyph is canonical before what is around
it is read.
-/

set_option autoImplicit false

namespace FormulaEditor

/-- Whatever is read is canonical. -/
def Outcome.Canonical (outcome : Outcome) : Prop :=
  ∀ value, outcome = .ok value → value.Canonical

/-- What a token stands for is canonical. -/
def Token.Canonical : Token → Prop
  | char _ => True
  | operand value | power value => Outcome.Canonical value

/-- What a word stands for is canonical, and it names no other operator than a function. -/
def Lexeme.Canonical : Lexeme → Prop
  | operand value | power value => Outcome.Canonical value
  | function op => op ∈ Operator.functions
  | plus | minus | times | stray _ => True

namespace Outcome

variable {outcome : Outcome}

/-- An outcome which is a canonical formula is canonical. -/
theorem canonical_ok {value : Formula} (h : value.Canonical) : Canonical (.ok value) := by
  rintro _ ⟨⟩
  exact h

/-- What is made of a canonical value has to be canonical. -/
theorem Canonical.map {f : Formula → Formula} (h : Canonical outcome)
    (hf : ∀ value, value.Canonical → (f value).Canonical) : Canonical (outcome.map f) := by
  cases outcome with
  | error e => nofun
  | ok value => exact canonical_ok (hf value (h value rfl))

end Outcome

/-! ## Words -/

namespace Lexeme

/-- The word in front of a sequence stands for something canonical. -/
theorem Begins.canonical {α : Type} {plain : Char → α} {items rest : List α} {word : Lexeme}
    (h : Begins plain items word rest) : word.Canonical := by
  cases h with
  | @number text rest h _ =>
    refine Outcome.canonical_ok (.number ?_)
    rw [String.toList_ofList]
    exact h
  | function h => exact h
  | pi => exact Outcome.canonical_ok (.constant .pi)
  | constant name => exact Outcome.canonical_ok (.constant name)
  | letter h unnamed _ => exact Outcome.canonical_ok (.identifier h unnamed)
  | plus | minus | times => trivial

/-- The first word which is cut from canonical tokens is canonical. -/
theorem canonical_next {token : Token} (h : token.Canonical) (tokens : List Token) :
    (next token tokens).1.Canonical := by
  cases token with
  | operand value => exact h
  | power exponent => exact h
  | char c =>
    have hcut := words_cons (.char c) tokens
    obtain ⟨word, rest, hbegins⟩ | ⟨d, rest, hstray⟩ := exists_begins c tokens
    · rw [words_of_begins hbegins] at hcut
      rw [← (List.cons.inj hcut).1]
      exact hbegins.canonical
    · rw [hstray] at hcut
      rw [← (List.cons.inj hcut).1]
      trivial

/-- All words which are cut from canonical tokens are canonical. -/
theorem canonical_wordsAfter {tokens : List Token} (h : ∀ token ∈ tokens, token.Canonical)
    (skipped : Nat) : ∀ word ∈ wordsAfter skipped tokens, word.Canonical := by
  induction tokens generalizing skipped with
  | nil => cases skipped <;> nofun
  | cons token tokens ih =>
    obtain ⟨htoken, htokens⟩ := List.forall_mem_cons.mp h
    cases skipped with
    | zero => exact List.forall_mem_cons.mpr ⟨canonical_next htoken tokens, ih htokens _⟩
    | succ skipped => exact ih htokens skipped

/-! ## The grammar -/

/-- A canonical operand with canonical exponents is a canonical power. -/
theorem canonical_powerOf {base : Formula} {exponents : List Formula}
    (h : ∀ word ∈ powerWords base exponents, word.Canonical) :
    (powerOf base exponents).Canonical := by
  have hbase : base.Canonical := h _ List.mem_cons_self base rfl
  have hexponents : ∀ exponent ∈ exponents, exponent.Canonical := fun exponent hmem =>
    h _ (List.mem_cons_of_mem _ (List.mem_map_of_mem hmem)) exponent rfl
  clear h
  induction exponents generalizing base with
  | nil => exact hbase
  | cons exponent exponents ih =>
    obtain ⟨hexponent, hothers⟩ := List.forall_mem_cons.mp hexponents
    exact ih (.binary rfl (by decide) hbase hexponent) hothers

/-- A term of canonical words is canonical. -/
theorem Term.canonical {words : List Lexeme} {value : Formula} (h : Term words value)
    (hwords : ∀ word ∈ words, word.Canonical) : value.Canonical := by
  induction h with
  | function _ ih =>
    obtain ⟨hfunction, hwords⟩ := List.forall_mem_cons.mp hwords
    have hfits : ∀ op ∈ Operator.functions, op.takes 1 = true ∧ op ≠ .root := by decide
    obtain ⟨htakes, hop⟩ := hfits _ hfunction
    exact .unary htakes hop (ih hwords)
  | operand base exponents => exact canonical_powerOf hwords
  | juxtaposed base exponents _ ih =>
    obtain ⟨hpower, hwords⟩ := List.forall_mem_append.mp hwords
    exact .binary rfl (by decide) (canonical_powerOf hpower) (ih hwords)

/-- A signed term of canonical words denotes a canonical formula. -/
theorem Signed.canonical {words : List Lexeme} {value : Formula} (h : Signed words value)
    (hwords : ∀ word ∈ words, word.Canonical) : value.Canonical := by
  induction h with
  | term h => exact h.canonical hwords
  | minus _ ih => exact .unary rfl (by decide) (ih (List.forall_mem_cons.mp hwords).2)

/-- A product of canonical words denotes a canonical formula. -/
theorem Product.canonical {words : List Lexeme} {value : Formula} (h : Product words value)
    (hwords : ∀ word ∈ words, word.Canonical) : value.Canonical := by
  induction h with
  | signed h => exact h.canonical hwords
  | times hleft _ ih =>
    obtain ⟨hfront, hback⟩ := List.forall_mem_append.mp hwords
    have hright := ih (List.forall_mem_cons.mp hback).2
    exact .binary rfl (by decide) (hleft.canonical hfront) hright

/-- A sum of canonical words denotes a canonical formula. -/
theorem Sum.canonical {words : List Lexeme} {value : Formula} (h : Sum words value)
    (hwords : ∀ word ∈ words, word.Canonical) : value.Canonical := by
  induction h with
  | product h => exact h.canonical hwords
  | plus _ hright ih | minus _ hright ih =>
    obtain ⟨hfront, hback⟩ := List.forall_mem_append.mp hwords
    have hlast := hright.canonical (List.forall_mem_cons.mp hback).2
    exact .binary rfl (by decide) (ih hfront) hlast

end Lexeme

/-! ## Fences -/

/-- Only canonical formulas are read from canonical tokens without fences. -/
theorem Token.canonical_sum {tokens : List Token} (h : ∀ token ∈ tokens, token.Canonical) :
    Outcome.Canonical (Token.sum tokens) :=
  fun _ hvalue => (Lexeme.sum_eq_ok_iff.mp hvalue).canonical (Lexeme.canonical_wordsAfter h 0)

/-- A fence around something canonical is canonical. -/
theorem Fence.canonical_operand (fence : Fence) {outcome : Outcome}
    (h : Outcome.Canonical outcome) : Outcome.Canonical (fence.operand outcome) := by
  cases fence with
  | brackets => exact h
  | bars => exact h.map fun _ hvalue => .unary rfl (by decide) hvalue

mutual

/-- A span of canonical tokens stands for a canonical token. -/
theorem Span.canonical_token : (span : Span Token) →
    (∀ token ∈ span.items, token.Canonical) → span.token.Canonical
  | .single token, h => h token List.mem_cons_self
  | .enclosed fence content, h =>
    fence.canonical_operand (Token.canonical_sum (Span.canonical_tokens content h))

/-- Spans of canonical tokens stand for canonical tokens. -/
theorem Span.canonical_tokens : (spans : List (Span Token)) →
    (∀ token ∈ Span.allItems spans, token.Canonical) →
      ∀ token ∈ Span.tokens spans, token.Canonical
  | [], _ => nofun
  | span :: spans, h =>
    have h := List.forall_mem_append.mp h
    List.forall_mem_cons.mpr ⟨span.canonical_token h.1, Span.canonical_tokens spans h.2⟩

end

/-- Only canonical formulas are read from canonical tokens. -/
theorem Token.canonical_formula {tokens : List Token} (h : ∀ token ∈ tokens, token.Canonical) :
    Outcome.Canonical (Token.formula tokens) := by
  rw [Token.formula]
  cases hgroup : Fence.group Token.precis 1 tokens with
  | error position => nofun
  | ok spans =>
    have hspans : ∀ token ∈ Span.allItems spans, token.Canonical :=
      fun token htoken => h token (Fence.mem_of_group hgroup htoken)
    cases spans with
    | nil => nofun
    | cons span spans => exact Token.canonical_sum (Span.canonical_tokens _ hspans)

/-! ## Glyphs -/

/-- What canonical tokens are read as inside a glyph is canonical. -/
theorem Token.canonical_slot {tokens : List Token} (h : ∀ token ∈ tokens, token.Canonical) :
    Outcome.Canonical (Token.slot tokens) := by
  intro value hvalue
  rw [Token.slot] at hvalue
  split at hvalue
  · cases hvalue
  · exact Token.canonical_formula h value hvalue

/-- A fraction with canonical formulas above and below is canonical. -/
theorem Outcome.canonical_divide {top bottom : Outcome} (htop : Outcome.Canonical top)
    (hbottom : Outcome.Canonical bottom) :
    Outcome.Canonical (do return .binary .divide (← top) (← bottom)) := by
  cases top with
  | error e => nofun
  | ok dividend =>
    exact hbottom.map fun divisor hdivisor =>
      .binary rfl (by decide) (htop dividend rfl) hdivisor

mutual

/-- Only canonical formulas are read from inside a glyph. -/
theorem Glyph.canonical_token : (glyph : Glyph) → glyph.token.Canonical
  | .atom c => by
    show (Token.ofChar c).Canonical
    rw [Token.ofChar]
    split
    · nofun
    split
    · nofun
    · trivial
  | .bracket _ | .bar => trivial
  | .fraction numerator denominator =>
    Outcome.canonical_divide (Token.canonical_slot (Glyph.canonical_tokens numerator))
      (Token.canonical_slot (Glyph.canonical_tokens denominator))
  | .superscript exponent => Token.canonical_slot (Glyph.canonical_tokens exponent)
  | .radical radicand =>
    (Token.canonical_slot (Glyph.canonical_tokens radicand)).map fun _ => .squareRoot

/-- The tokens of a line are canonical. -/
theorem Glyph.canonical_tokens : (glyphs : List Glyph) →
    ∀ token ∈ Glyph.tokens glyphs, token.Canonical
  | [] => nofun
  | glyph :: glyphs =>
    List.forall_mem_cons.mpr ⟨glyph.canonical_token, Glyph.canonical_tokens glyphs⟩

end

/-- A line denotes a canonical formula, if it denotes any. -/
theorem Line.canonical_of_formula {line : Line} {value : Formula} (h : line.formula = .ok value) :
    value.Canonical :=
  Token.canonical_formula (Glyph.canonical_tokens line) value h

end FormulaEditor
