import FormulaEditor.Text.Alphabetic
import FormulaEditor.Text.Blank
import Mathlib.Data.List.TakeWhile

/-!
# Letters apart from other characters

Letters, digits and blanks lie in ranges which do not overlap, so that nothing is of two of these
kinds. The characters which are something else in a line, such as signs and brackets, are no letters
either. What is trimmed off a text are blanks, and a text without blanks is what is left when those
around it are trimmed off.
-/

set_option autoImplicit false

namespace FormulaEditor.Text

/-- No letter is one of the characters which are something else in a line. -/
theorem ne_of_isAlphabetic {c d : Char} (h : isAlphabetic c = true)
    (hd : d ∈ ['+', '-', '*', '(', ')', '%', '.', '^', '_', '|', '∞']) : c ≠ d := by
  rintro rfl
  simp only [List.mem_cons, List.not_mem_nil, or_false] at hd
  obtain rfl | rfl | rfl | rfl | rfl | rfl | rfl | rfl | rfl | rfl | rfl := hd <;>
    exact absurd h (by decide +kernel)

/-! ## Ranges apart from each other -/

/-- No character lies in two sets whose ranges do not overlap. -/
theorem Ranges.not_covers_of_disjoint {ranges others : Ranges} {c : Char}
    (h : ranges.all (fun range => others.all fun other =>
      decide (range.2 < other.1) || decide (other.2 < range.1)) = true)
    (hc : ranges.covers c = true) : others.covers c = false := by
  rw [Bool.eq_false_iff]
  intro hother
  obtain ⟨range, hrange, hcovers⟩ := List.any_eq_true.mp hc
  obtain ⟨other, hmem, hcovers'⟩ := List.any_eq_true.mp hother
  have happart := List.all_eq_true.mp (List.all_eq_true.mp h range hrange) other hmem
  simp only [Bool.and_eq_true, Bool.or_eq_true, decide_eq_true_eq] at hcovers hcovers' happart
  omega

/-- A character between the ends of a range of a set is in the set. -/
theorem Ranges.covers_of_mem {ranges : Ranges} {first last : Nat} {c : Char}
    (h : (first, last) ∈ ranges) (hfirst : first ≤ c.toNat) (hlast : c.toNat ≤ last) :
    ranges.covers c = true := by
  refine List.any_eq_true.mpr ⟨(first, last), h, ?_⟩
  rw [Bool.and_eq_true, decide_eq_true_eq, decide_eq_true_eq]
  exact ⟨hfirst, hlast⟩

/-- Every letter is found in the table. -/
theorem covers_of_isAlphabetic {c : Char} (h : isAlphabetic c = true) :
    alphabetic.covers c = true := by
  rw [isAlphabetic, Bool.or_eq_true] at h
  obtain h | h := h
  · -- the letters of ASCII are the first two ranges of the table
    have hletter : (c.isUpper || c.isLower) = true := h
    rw [Bool.or_eq_true] at hletter
    obtain hupper | hlower := hletter
    · have hbounds : 'A'.val ≤ c.val ∧ c.val ≤ 'Z'.val := of_decide_eq_true hupper
      exact Ranges.covers_of_mem List.mem_cons_self hbounds.1 hbounds.2
    · have hsplit : decide ('a'.val ≤ c.val) = true ∧ decide (c.val ≤ 'z'.val) = true :=
        Bool.and_eq_true_iff.mp hlower
      exact Ranges.covers_of_mem (List.mem_cons_of_mem _ List.mem_cons_self)
        (of_decide_eq_true hsplit.1) (of_decide_eq_true hsplit.2)
  · exact h

/-- The ASCII digits are covered by their range. -/
theorem covers_of_isDigit {c : Char} (h : c.isDigit = true) :
    Ranges.covers [(0x30, 0x39)] c = true := by
  have hsplit : decide ('0'.val ≤ c.val) = true ∧ decide (c.val ≤ '9'.val) = true :=
    Bool.and_eq_true_iff.mp h
  exact Ranges.covers_of_mem List.mem_cons_self (of_decide_eq_true hsplit.1)
    (of_decide_eq_true hsplit.2)

/-- No alphabetic character is a digit. -/
theorem isDigit_of_isAlphabetic {c : Char} (h : isAlphabetic c = true) : c.isDigit = false := by
  rw [Bool.eq_false_iff]
  intro hdigit
  have hnone : alphabetic.covers c = false :=
    Ranges.not_covers_of_disjoint (by decide +kernel) (covers_of_isDigit hdigit)
  rw [covers_of_isAlphabetic h] at hnone
  cases hnone

/-! ## Blanks -/

/-- No alphabetic character is blank. -/
theorem isBlank_of_isAlphabetic {c : Char} (h : isAlphabetic c = true) : isBlank c = false :=
  Ranges.not_covers_of_disjoint (by decide +kernel) (covers_of_isAlphabetic h)

/-- No digit is blank. -/
theorem isBlank_of_isDigit {c : Char} (h : c.isDigit = true) : isBlank c = false :=
  Ranges.not_covers_of_disjoint (by decide +kernel) (covers_of_isDigit h)

/-- There is nothing to skip in front of a character which is no blank. -/
theorem skipBlanks_cons {c : Char} (h : isBlank c = false) (text : List Char) :
    skipBlanks (c :: text) = c :: text := by
  rw [skipBlanks, List.dropWhile_cons, if_neg]
  rw [h]
  exact Bool.false_ne_true

/-- Blanks in front of a text are skipped with those which it begins with. -/
theorem skipBlanks_append {blanks : List Char} (h : blanks.all isBlank = true)
    (text : List Char) : skipBlanks (blanks ++ text) = skipBlanks text :=
  List.dropWhile_append_of_pos (List.all_eq_true.mp h)

/-- A text is skipped altogether just if it is all blank. -/
theorem skipBlanks_eq_nil_iff {text : List Char} :
    skipBlanks text = [] ↔ text.all isBlank = true := by
  rw [skipBlanks, List.dropWhile_eq_nil_iff, List.all_eq_true]

/-- What is skipped at the beginning of a text are blanks. -/
theorem exists_skipped (text : List Char) :
    ∃ blanks, blanks.all isBlank = true ∧ text = blanks ++ skipBlanks text :=
  ⟨text.takeWhile isBlank, List.all_takeWhile, List.takeWhile_append_dropWhile.symm⟩

/-- What is trimmed off a text are blanks. -/
theorem exists_trimmed (text : List Char) :
    ∃ left right, left.all isBlank = true ∧ right.all isBlank = true ∧
      text = left ++ (trim text ++ right) := by
  obtain ⟨left, hleft, htext⟩ := exists_skipped text
  obtain ⟨right, hright, hreverse⟩ := exists_skipped (skipBlanks text).reverse
  refine ⟨left, right.reverse, hleft, by rwa [List.all_reverse], ?_⟩
  have hskip := congrArg List.reverse hreverse
  rw [List.reverse_reverse, List.reverse_append] at hskip
  rw [trim, ← hskip]
  exact htext

/-- A text without blanks is what is left when blanks around it are trimmed off. -/
theorem trim_append {left text right : List Char} (hleft : left.all isBlank = true)
    (hright : right.all isBlank = true) (h : ∀ c ∈ text, isBlank c = false) :
    trim (left ++ (text ++ right)) = text := by
  have hskip : ∀ text : List Char, (∀ c ∈ text, isBlank c = false) → skipBlanks text = text := by
    intro text htext
    cases text with
    | nil => rfl
    | cons c text => exact skipBlanks_cons (htext c List.mem_cons_self) text
  rw [trim, skipBlanks_append hleft]
  cases text with
  | nil =>
    rw [List.nil_append, skipBlanks_eq_nil_iff.mpr hright]
    rfl
  | cons c text =>
    have hreverse : ∀ d ∈ (c :: text).reverse, isBlank d = false :=
      fun d hd => h d (List.mem_reverse.mp hd)
    rw [List.cons_append, skipBlanks_cons (h c List.mem_cons_self), ← List.cons_append,
      List.reverse_append, skipBlanks_append (by rwa [List.all_reverse]), hskip _ hreverse,
      List.reverse_reverse]

end FormulaEditor.Text
