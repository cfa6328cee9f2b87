import FormulaEditor.Formula.Readable
import FormulaEditor.Proofs.Formula.Reading

/-!
# Canonical formulas

The formulas which a line may denote: numbers have no sign, identifiers are letters which name no
constant, operators have one operand or two, and every root has the degree two
(`Formula.Canonical`). A canonical formula can be typeset and is its own normal form
(`Formula.Canonical.normal_eq`), and it is spelled properly and passes the check, so that it can be
read from its texts.
-/

set_option autoImplicit false

namespace FormulaEditor

/-- An operator without a degree fits operands if it takes their number. -/
theorem Operator.fits_eq_takes {op : Operator} (h : op ≠ .root) (operands : List Formula) :
    op.fits operands = op.takes operands.length := by
  cases op with
  | root => exact absurd rfl h
  | _ => rfl

namespace Formula

/-- What a line may denote. -/
inductive Canonical : Formula → Prop
  | number {text : String} (h : Literal.isUnsigned text.toList = true) : Canonical (.number text)
  | identifier {letter : Char} (h : Text.isAlphabetic letter = true)
      (unnamed : ∀ name : Constant, letter ≠ name.letter) : Canonical (.identifier letter)
  | constant (name : Constant) : Canonical (.constant name)
  | unary {op : Operator} {operand : Formula} (h : op.takes 1 = true) (hop : op ≠ .root)
      (hoperand : Canonical operand) : Canonical (.unary op operand)
  | binary {op : Operator} {left right : Formula} (h : op.takes 2 = true) (hop : op ≠ .root)
      (hleft : Canonical left) (hright : Canonical right) : Canonical (.binary op left right)
  | squareRoot {radicand : Formula} (h : Canonical radicand) : Canonical (.squareRoot radicand)

/-- A root is in normal form if its radicand is. -/
theorem normal_squareRoot (radicand : Formula) :
    (squareRoot radicand).normal = .squareRoot radicand.normal := by
  rw [squareRoot, normal]

/-- What passes the check is no degree. -/
theorem isDegree_eq_of_check {formula : Formula} (h : formula.check = .ok ()) :
    formula.isDegree = false := by
  cases formula with
  | degree value =>
    rw [check] at h
    cases h
  | _ => rfl

/-- Operands pass the check of an operator if each passes its own. -/
theorem checkOperands_eq_ok (op : Operator) {operands : List Formula}
    (h : ∀ operand ∈ operands, operand.check = .ok ()) : checkOperands op operands = .ok () := by
  induction operands with
  | nil => rw [checkOperands]
  | cons operand operands ih =>
    obtain ⟨hcheck, hothers⟩ := List.forall_mem_cons.mp h
    rw [checkOperands, hcheck, ih hothers]
    · rfl
    · rintro value rfl
      cases isDegree_eq_of_check hcheck

/-- An operator which takes no degree passes the check with a right number of operands which do. -/
theorem check_apply {op : Operator} (hop : op ≠ .root) {operands : List Formula}
    (htakes : op.takes operands.length = true)
    (h : ∀ operand ∈ operands, operand.check = .ok ()) : (apply op operands).check = .ok () := by
  rw [check, Operator.fits_eq_takes hop, if_pos htakes, checkOperands_eq_ok op h]

namespace Canonical

variable {formula : Formula}

/-- Canonical formulas can be typeset. -/
theorem typesettable_eq (h : formula.Canonical) : formula.typesettable = .ok () := by
  induction h with
  | number h => rw [typesettable, if_pos (isNumberLiteral_of_isUnsigned h)]
  | identifier h _ => rw [typesettable, if_pos h]
  | constant name => rw [typesettable]
  | unary htakes hop _ ih =>
    rw [Formula.unary, typesettable_apply_iff hop, List.forall_mem_singleton]
    exact ⟨htakes, ih⟩
  | binary htakes hop _ _ ihleft ihright =>
    rw [Formula.binary, typesettable_apply_iff hop, List.forall_mem_cons, List.forall_mem_singleton]
    exact ⟨htakes, ihleft, ihright⟩
  | squareRoot _ ih => exact typesettable_root_iff.mpr ⟨_, ih, .inr ⟨_, rfl, rfl⟩⟩

/-- A canonical formula is its own normal form. -/
theorem normal_eq (h : formula.Canonical) : formula.normal = formula := by
  induction h with
  | number h => exact normal_number (Literal.head?_ne_of_isUnsigned h)
  | @identifier letter h unnamed =>
    have hexponential : letter ≠ 'e' := unnamed .exponentialE
    have hpi : letter ≠ 'π' := unnamed .pi
    rw [normal, if_neg hexponential, if_neg hpi]
  | constant name => rw [normal]
  | @unary op operand _ hop _ ih =>
    rw [Formula.unary, normal_apply hop, List.map_singleton, ih]
    cases op <;> rfl
  | @binary op left right _ hop _ _ ihleft ihright =>
    rw [Formula.binary, normal_apply hop, List.map_cons, List.map_singleton, ihleft, ihright]
    cases op <;> rfl
  | squareRoot _ ih => rw [normal_squareRoot, ih]

/-- Canonical formulas are spelled properly. -/
theorem spelled (h : formula.Canonical) : formula.Spelled := by
  induction h with
  | number h => exact .number (isNumberLiteral_of_isUnsigned h)
  | identifier h _ => exact .identifier h
  | constant name => exact .constant name
  | unary _ _ _ ih => exact .apply _ (List.forall_mem_singleton.mpr ih)
  | binary _ _ _ _ ihleft ihright =>
    exact .apply _ (List.forall_mem_cons.mpr ⟨ihleft, List.forall_mem_singleton.mpr ihright⟩)
  | squareRoot _ ih =>
    have htwo : Spelled (.degree (.number "2")) := .degree (.number rfl)
    exact .apply _ (List.forall_mem_cons.mpr ⟨htwo, List.forall_mem_singleton.mpr ih⟩)

/-- Canonical formulas pass the check. -/
theorem check_eq (h : formula.Canonical) : formula.check = .ok () := by
  induction h with
  | number _ => rw [check]
  | identifier _ _ => rw [check]
  | constant name => rw [check]
  | unary htakes hop _ ih => exact check_apply hop htakes (List.forall_mem_singleton.mpr ih)
  | binary htakes hop _ _ ihleft ihright =>
    refine check_apply hop htakes (List.forall_mem_cons.mpr ⟨ihleft, ?_⟩)
    exact List.forall_mem_singleton.mpr ihright
  | @squareRoot radicand h ih =>
    have hfits : Operator.root.fits [.degree (.number "2"), radicand] = true := by
      rw [Operator.fits, isDegree_eq_of_check ih]
      rfl
    have hradicand : checkOperands .root [radicand] = .ok () :=
      checkOperands_eq_ok .root (List.forall_mem_singleton.mpr ih)
    rw [Formula.squareRoot, check, if_pos hfits, checkOperands, if_pos rfl, check, hradicand]
    rfl

end Canonical

end Formula

end FormulaEditor
