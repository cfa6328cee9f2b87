import FormulaEditor.Proofs.Formula.Canonical
import FormulaEditor.Proofs.Formula.Readable
import FormulaEditor.Stroke

/-!
# Degrees which can be typeset

A formula is checked twice: when it is read (`Formula.check`) and when it is put into a tree
(`Formula.typesettable`). Both ask for the same numbers, letters and operands, and differ only in
what they ask of a degree. The first takes every value which passes it, the second only what has the
value two, and it does not look into it. So a readable formula can be typeset if and only if it has
no roots but square roots, apart from those in a degree (`Formula.Readable.typesettable_iff`), and
otherwise it is refused for that reason (`Formula.Readable.typesettable_cases`).
-/

set_option autoImplicit false

namespace FormulaEditor

open Text

/-- A letter of an identifier is typed as itself. -/
theorem Stroke.ofChar_of_isAlphabetic {c : Char} (h : isAlphabetic c = true) :
    ofChar c = .ok (.atom c) := by
  have hslash : c ≠ '/' := by
    rintro rfl
    exact absurd h (by decide +kernel)
  have hother : ∀ d, d ∈ ['+', '-', '*', '(', ')', '%', '.', '^', '_', '|', '∞'] → c ≠ d :=
    fun d hd => ne_of_isAlphabetic h hd
  have hsign : ¬(c = '.' ∨ c = '+' ∨ c = '-' ∨ c = '*') := by
    rintro (hc | hc | hc | hc) <;> exact hother _ (by decide) hc
  rw [ofChar, if_neg hslash, if_neg (hother '(' (by decide)), if_neg (hother ')' (by decide)),
    if_neg (hother '|' (by decide)), if_neg (hother '^' (by decide)), if_neg hsign, h, Bool.or_true,
    if_pos rfl]

namespace Formula

/-- One formula is another one or a part of it, not counting the parts of degrees. -/
inductive PartOf (part : Formula) : Formula → Prop
  | refl : PartOf part part
  | operand {op : Operator} {operands : List Formula} {operand : Formula}
      (hoperand : operand ∈ operands) (h : PartOf part operand) : PartOf part (.apply op operands)

/-- Every root has the degree two, if it has one, apart from those in a degree. -/
def SquareRootsOnly (formula : Formula) : Prop :=
  ∀ operands, PartOf (.apply .root operands) formula → ∀ value, .degree value ∈ operands →
    value.decimalValue.any (·.hasValue 2) = true

variable {formula part value : Formula} {op : Operator} {operands : List Formula}

/-! ## Parts -/

/-- The operands of a formula which is spelled properly are spelled properly. -/
theorem Spelled.of_operand (h : (Formula.apply op operands).Spelled) :
    ∀ operand ∈ operands, operand.Spelled := by
  cases h with
  | apply _ h => exact h

/-- All parts of a formula which is spelled properly are spelled properly. -/
theorem Spelled.of_partOf (h : formula.Spelled) (hpart : PartOf part formula) : part.Spelled := by
  induction hpart with
  | refl => exact h
  | operand hoperand _ ih => exact ih (h.of_operand _ hoperand)

/-- Nothing but an application has a part which is an application. -/
theorem squareRootsOnly_of_not_apply (h : ∀ op operands, formula ≠ apply op operands) :
    formula.SquareRootsOnly := by
  intro operands hpart
  cases hpart with
  | refl => exact absurd rfl (h _ _)
  | operand => exact absurd rfl (h _ _)

/-- An application has square roots only if its operands do, and if it is one when it is a root. -/
theorem squareRootsOnly_apply_iff :
    (apply op operands).SquareRootsOnly ↔
      (op = .root → ∀ value, .degree value ∈ operands →
        value.decimalValue.any (·.hasValue 2) = true) ∧
      ∀ operand ∈ operands, operand.SquareRootsOnly := by
  constructor
  · intro h
    refine ⟨?_, fun operand hoperand below hpart => h below (.operand hoperand hpart)⟩
    rintro rfl
    exact h operands .refl
  · rintro ⟨hroot, hoperands⟩ below hpart
    cases hpart with
    | refl => exact hroot rfl
    | operand hoperand hpart => exact hoperands _ hoperand below hpart

/-! ## The check of what has been read -/

/-- If operands pass the check and the first one is no degree, it passes the check on its own. -/
theorem check_of_checkOperands {operand : Formula} (hdegree : operand.isDegree = false)
    (h : checkOperands op (operand :: operands) = .ok ()) :
    operand.check = .ok () ∧ checkOperands op operands = .ok () := by
  rw [checkOperands] at h
  · obtain ⟨⟨⟩, hoperand, hothers⟩ := Reading.exists_of_bind h
    exact ⟨hoperand, hothers⟩
  · rintro value rfl
    cases hdegree

/-- Operands which pass the check of an operator without a degree pass their own. -/
theorem forall_check_of_checkOperands (hop : op ≠ .root) (h : checkOperands op operands = .ok ()) :
    ∀ operand ∈ operands, operand.check = .ok () := by
  induction operands with
  | nil => exact List.forall_mem_nil _
  | cons operand operands ih =>
    have hdegree : operand.isDegree = false := by
      cases operand with
      | degree value =>
        rw [checkOperands, if_neg hop] at h
        cases h
      | _ => rfl
    obtain ⟨hoperand, hothers⟩ := check_of_checkOperands hdegree h
    exact List.forall_mem_cons.mpr ⟨hoperand, ih hothers⟩

/-- An operator which takes no degree passes the check exactly with a right number of operands which
pass it. -/
theorem check_apply_iff (hop : op ≠ .root) :
    (apply op operands).check = .ok () ↔
      op.takes operands.length = true ∧ ∀ operand ∈ operands, operand.check = .ok () := by
  constructor
  · intro h
    rw [check, Operator.fits_eq_takes hop] at h
    split at h
    · next htakes => exact ⟨htakes, forall_check_of_checkOperands hop h⟩
    · cases h
  · rintro ⟨htakes, h⟩
    exact check_apply hop htakes h

/-- A root fits a radicand which is no degree, alone or behind a degree. -/
theorem exists_radicand_of_fits (h : Operator.root.fits operands = true) :
    ∃ radicand, radicand.isDegree = false ∧
      (operands = [radicand] ∨ ∃ value, operands = [.degree value, radicand]) := by
  unfold Operator.fits at h
  split at h
  · next value radicand _ => exact ⟨radicand, by simpa using h, .inr ⟨value, rfl⟩⟩
  · next radicand _ => exact ⟨radicand, by simpa using h, .inl rfl⟩
  · cases h
  · next hroot _ _ => exact absurd rfl hroot

/-- A root which passes the check has a radicand which passes it, and a degree in front of that or
none. -/
theorem exists_radicand_of_check (h : (apply .root operands).check = .ok ()) :
    ∃ radicand, radicand.check = .ok () ∧
      (operands = [radicand] ∨ ∃ value, operands = [.degree value, radicand]) := by
  rw [check] at h
  split at h
  · next hfits =>
    obtain ⟨radicand, hradicand, hform⟩ := exists_radicand_of_fits hfits
    refine ⟨radicand, ?_, hform⟩
    obtain rfl | ⟨value, rfl⟩ := hform
    · exact (check_of_checkOperands hradicand h).1
    · rw [checkOperands] at h
      obtain ⟨⟨⟩, -, hothers⟩ := Reading.exists_of_bind h
      exact (check_of_checkOperands hradicand hothers).1
  · cases h

/-! ## The check of what is typeset -/

/-- If there is only one fault which operands may have, then there is only one which a list of them
may have. -/
theorem typesettableAll_cases {fault : ValueFault}
    (h : ∀ operand ∈ operands,
      operand.typesettable = .ok () ∨ operand.typesettable = .error fault) :
    typesettableAll operands = .ok () ∨ typesettableAll operands = .error fault := by
  induction operands with
  | nil => exact .inl (by rw [typesettableAll])
  | cons operand operands ih =>
    obtain ⟨hoperand, hothers⟩ := List.forall_mem_cons.mp h
    rw [typesettableAll]
    obtain hoperand | hoperand := hoperand
    · rw [hoperand]
      exact ih hothers
    · rw [hoperand]
      exact .inr rfl

namespace Readable

/-- The operands of an operator which takes no degree are readable. -/
theorem of_operand (h : (apply op operands).Readable) (hop : op ≠ .root) :
    ∀ operand ∈ operands, operand.Readable := fun operand hoperand =>
  ⟨h.spelled.of_operand operand hoperand, ((check_apply_iff hop).mp h.check).2 operand hoperand⟩

/-- The radicand of a root is readable, and a degree in front of it is the only other operand. -/
theorem exists_radicand (h : (apply .root operands).Readable) :
    ∃ radicand, radicand.Readable ∧
      (operands = [radicand] ∨ ∃ value, operands = [.degree value, radicand]) := by
  obtain ⟨radicand, hradicand, hform⟩ := exists_radicand_of_check h.check
  refine ⟨radicand, ⟨h.spelled.of_operand radicand ?_, hradicand⟩, hform⟩
  obtain rfl | ⟨value, rfl⟩ := hform <;> simp

/-- If a readable formula cannot be typeset, then because of a root which is not square. -/
theorem typesettable_cases (h : formula.Readable) :
    formula.typesettable = .ok () ∨ formula.typesettable = .error .notSquareRoot := by
  induction formula using inductionOn with
  | number text =>
    cases h.spelled with
    | number hliteral => exact .inl (by rw [typesettable, if_pos hliteral])
  | identifier letter =>
    cases h.spelled with
    | identifier hletter => exact .inl (by rw [typesettable, if_pos hletter])
  | constant name => exact .inl (by rw [typesettable])
  | degree value => cases isDegree_eq_of_check h.check
  | apply op operands ih =>
    by_cases hop : op = .root
    · subst hop
      obtain ⟨radicand, hradicand, rfl | ⟨value, rfl⟩⟩ := h.exists_radicand
      · rw [typesettable]
        exact ih radicand List.mem_cons_self hradicand
      · rw [typesettable]
        split
        · exact ih radicand (List.mem_cons_of_mem _ List.mem_cons_self) hradicand
        · exact .inr rfl
    · rw [typesettable_apply hop, if_pos ((check_apply_iff hop).mp h.check).1]
      exact typesettableAll_cases fun operand hoperand =>
        ih operand hoperand (h.of_operand hop operand hoperand)

/-- A readable formula can be typeset if and only if it has square roots only. -/
theorem typesettable_iff (h : formula.Readable) :
    formula.typesettable = .ok () ↔ formula.SquareRootsOnly := by
  induction formula using inductionOn with
  | number text =>
    cases h.spelled with
    | number hliteral =>
      rw [typesettable, if_pos hliteral]
      exact iff_of_true rfl (squareRootsOnly_of_not_apply fun _ _ => Formula.noConfusion)
  | identifier letter =>
    cases h.spelled with
    | identifier hletter =>
      rw [typesettable, if_pos hletter]
      exact iff_of_true rfl (squareRootsOnly_of_not_apply fun _ _ => Formula.noConfusion)
  | constant name =>
    rw [typesettable]
    exact iff_of_true rfl (squareRootsOnly_of_not_apply fun _ _ => Formula.noConfusion)
  | degree value => cases isDegree_eq_of_check h.check
  | apply op operands ih =>
    rw [squareRootsOnly_apply_iff]
    by_cases hop : op = .root
    · subst hop
      obtain ⟨radicand, hradicand, hform⟩ := h.exists_radicand
      have hradicandIff : radicand.typesettable = .ok () ↔ radicand.SquareRootsOnly := by
        refine ih radicand ?_ hradicand
        obtain rfl | ⟨value, rfl⟩ := hform <;> simp
      have hdegree : ∀ value, .degree value ≠ radicand := by
        rintro value rfl
        cases isDegree_eq_of_check hradicand.check
      obtain rfl | ⟨value, rfl⟩ := hform
      · rw [typesettable, hradicandIff]
        simp [hdegree]
      · have hvalue : SquareRootsOnly (.degree value) :=
          squareRootsOnly_of_not_apply fun _ _ => Formula.noConfusion
        rw [typesettable, List.forall_mem_cons, List.forall_mem_singleton, ← hradicandIff]
        split
        · next htwo => simp [hdegree, hvalue, htwo]
        · next htwo => simp [htwo]
    · have htakes := ((check_apply_iff hop).mp h.check).1
      rw [typesettable_apply_iff hop]
      simp only [htakes, hop, IsEmpty.forall_iff, true_and]
      exact forall₂_congr fun operand hoperand =>
        ih operand hoperand (h.of_operand hop operand hoperand)

end Readable

end Formula

end FormulaEditor
