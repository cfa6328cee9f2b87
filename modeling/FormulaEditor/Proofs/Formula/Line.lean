import FormulaEditor.Formula.Typeset
import FormulaEditor.Line.Glyph

/-!
# Formulas as lines

The line of a formula (`Formula.typeset`), with an explicit sign for every product and with brackets
wherever the line would otherwise be read in another grouping. What cannot be typeset has a line
too, of no meaning.
-/

set_option autoImplicit false

namespace FormulaEditor.Formula

/-- A line between round brackets. -/
def bracketed (line : Line) : Line :=
  .bracket .opening :: line ++ [.bracket .closing]

/-- A line between round brackets, where they are needed. -/
def bracketedIf (needed : Bool) (line : Line) : Line :=
  if needed then bracketed line else line

mutual

/-- The line of a formula. -/
def typeset : Formula → Line
  | .number text => text.toList.map .atom
  | .identifier letter => [.atom letter]
  | .constant name => [.atom name.letter]
  | .degree _ => []
  | .apply .plus (first :: others) => typeset first ++ typesetTerms '+' others
  | .apply .minus [operand] =>
    .atom '-' :: bracketedIf (operand.isSum || operand.isProduct) (typeset operand)
  | .apply .minus (first :: others) => typeset first ++ typesetTerms '-' others
  | .apply .times factors => typesetFactors factors
  | .apply .divide [numerator, denominator] => [.fraction (typeset numerator) (typeset denominator)]
  | .apply .power [base, exponent] =>
    bracketedIf (!base.bindsPower) (typeset base) ++ [.superscript (typeset exponent)]
  | .apply .root [_, radicand] | .apply .root [radicand] => [.radical (typeset radicand)]
  | .apply .abs [operand] => .bar :: typeset operand ++ [.bar]
  | .apply op [operand] => op.tag.toList.map .atom ++ bracketed (typeset operand)
  | .apply _ _ => []

/-- The terms of a sum after the first, each behind a sign. -/
def typesetTerms (sign : Char) : List Formula → Line
  | [] => []
  | term :: terms => .atom sign :: bracketedIf term.isSum (typeset term) ++ typesetTerms sign terms

/-- The factors of a product. Products group to the right, so only the last factor may be a
product without brackets. -/
def typesetFactors : List Formula → Line
  | [] => []
  | [factor] => bracketedIf factor.isSum (typeset factor)
  | factor :: factors =>
    bracketedIf (factor.isSum || factor.isProduct) (typeset factor) ++
      .atom '*' :: typesetFactors factors

end

/-- A root is written without its degree. -/
theorem typeset_root {operands : List Formula} {radicand : Formula}
    (hoperands : operands = [radicand] ∨ ∃ degree, operands = [degree, radicand]) :
    typeset (.apply .root operands) = [.radical radicand.typeset] := by
  obtain rfl | ⟨degree, rfl⟩ := hoperands <;> rw [typeset]

/-- A function is written as its name before its operand between brackets. -/
theorem typeset_function {op : Operator} (hop : op ∈ Operator.functions) (operand : Formula) :
    typeset (.apply op [operand]) = op.tag.toList.map .atom ++ bracketed operand.typeset := by
  cases op with
  | sin | cos | tan | ln =>
    rw [typeset]
    all_goals rintro ⟨⟩
  | _ => exact absurd hop (by decide)

end FormulaEditor.Formula
