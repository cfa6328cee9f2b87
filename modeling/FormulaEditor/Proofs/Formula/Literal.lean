import FormulaEditor.Formula.Literal
import Mathlib.Data.List.TakeWhile

/-!
# The shape of numeric literals

A numeral without a sign is a run of digits, or two of them with a point in between
(`Literal.isUnsigned_iff`).
-/

set_option autoImplicit false

namespace FormulaEditor

namespace Literal

/-- A run of digits is a text of digits which is not empty. -/
theorem isDigits_iff {text : List Char} :
    isDigits text = true ↔ text ≠ [] ∧ ∀ c ∈ text, c.isDigit = true := by
  cases text <;> simp [isDigits]

/-- There is no point among digits. -/
theorem ne_point_of_isDigits {text : List Char} (h : isDigits text = true) :
    ∀ c ∈ text, decide (c ≠ '.') = true := by
  intro c hc
  rw [decide_eq_true_eq]
  rintro rfl
  cases (isDigits_iff.mp h).2 _ hc

/-- A numeral without a sign is a run of digits, or two of them with a point in between. -/
theorem isUnsigned_iff {text : List Char} :
    isUnsigned text = true ↔ ∃ whole, isDigits whole = true ∧
      (text = whole ∨ ∃ places, isDigits places = true ∧ text = whole ++ '.' :: places) := by
  constructor
  · intro h
    rw [isUnsigned, Bool.and_eq_true] at h
    refine ⟨_, h.1, ?_⟩
    have hsplit := List.takeWhile_append_dropWhile (p := (· ≠ '.')) (l := text)
    cases hrest : text.dropWhile (· ≠ '.') with
    | nil =>
      rw [hrest, List.append_nil] at hsplit
      exact .inl hsplit.symm
    | cons c places =>
      have hhead := List.head?_dropWhile_not (p := (· ≠ '.')) text
      rw [hrest] at hhead h hsplit
      have hc : c = '.' := by simpa using hhead
      subst hc
      exact .inr ⟨places, h.2, hsplit.symm⟩
  · rintro ⟨whole, hwhole, rfl | ⟨places, hplaces, rfl⟩⟩
    · have hpoint := ne_point_of_isDigits hwhole
      rw [isUnsigned, List.takeWhile_eq_self_iff.mpr hpoint, List.dropWhile_eq_nil_iff.mpr hpoint,
        hwhole]
      rfl
    · have hpoint := ne_point_of_isDigits hwhole
      rw [isUnsigned, List.takeWhile_append_of_pos hpoint, List.dropWhile_append_of_pos hpoint]
      simp [hwhole, hplaces]

/-- A numeral without a sign is made of digits and points. -/
theorem isDigit_or_point {text : List Char} (h : isUnsigned text = true) {c : Char}
    (hc : c ∈ text) : c.isDigit = true ∨ c = '.' := by
  obtain ⟨whole, hwhole, rfl | ⟨places, hplaces, rfl⟩⟩ := isUnsigned_iff.mp h
  · exact .inl ((isDigits_iff.mp hwhole).2 c hc)
  · rw [List.mem_append, List.mem_cons] at hc
    obtain hc | rfl | hc := hc
    · exact .inl ((isDigits_iff.mp hwhole).2 c hc)
    · exact .inr rfl
    · exact .inl ((isDigits_iff.mp hplaces).2 c hc)

/-- A numeral without a sign begins with a digit. -/
theorem exists_digit_of_isUnsigned {text : List Char} (h : isUnsigned text = true) :
    ∃ c rest, text = c :: rest ∧ c.isDigit = true := by
  obtain ⟨whole, hwhole, hform⟩ := isUnsigned_iff.mp h
  obtain ⟨hne, hdigits⟩ := isDigits_iff.mp hwhole
  cases whole with
  | nil => exact absurd rfl hne
  | cons c whole =>
    have hc := hdigits c List.mem_cons_self
    obtain rfl | ⟨places, -, rfl⟩ := hform
    · exact ⟨c, whole, rfl, hc⟩
    · exact ⟨c, _, rfl, hc⟩

/-- An unsigned literal does not begin with a minus sign. -/
theorem head?_ne_of_isUnsigned {text : List Char} (h : isUnsigned text = true) :
    text.head? ≠ some '-' := by
  obtain ⟨c, rest, rfl, hc⟩ := exists_digit_of_isUnsigned h
  rintro ⟨⟩
  cases hc

/-- Without a minus sign in front there is no sign to drop. -/
theorem dropSign_eq_self {text : List Char} (h : text.head? ≠ some '-') : dropSign text = text := by
  rw [dropSign]
  rintro rest rfl
  exact h rfl

end Literal

/-- Unsigned literals are numeric literals. -/
theorem isNumberLiteral_of_isUnsigned {text : String}
    (h : Literal.isUnsigned text.toList = true) : isNumberLiteral text = true := by
  rw [isNumberLiteral, Literal.dropSign_eq_self (Literal.head?_ne_of_isUnsigned h), h]

end FormulaEditor
