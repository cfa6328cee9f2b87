import FormulaEditor.Decimal
import FormulaEditor.Proofs.Formula.Literal
import Mathlib.Algebra.Order.Field.Rat
import Mathlib.Algebra.Order.Ring.Abs
import Mathlib.Tactic.Linarith
import Mathlib.Tactic.Positivity

/-!
# Decimal numbers near two

A numeral has a value, which is a rational number (`Literal.value`). Reading it as a decimal number
rounds at the first place which does not fit, and with two in front of the point this is the
twenty-ninth. So a numeral is read as two if its value is, or if it is so close to two that the
rounding makes up for the difference (`Decimal.any_hasValue_two_iff`). Without such places there is
nothing so close to two but two (`Decimal.near_two_iff`).
-/

set_option autoImplicit false

namespace FormulaEditor

/-! ## The value of a numeral -/

namespace Literal

/-- The places behind the point of a numeral. -/
def places (text : List Char) : List Char :=
  (text.dropWhile (· ≠ '.')).drop 1

/-- The digits of a numeral without a sign, in front of the point and behind it. -/
def digits (text : List Char) : List Char :=
  text.takeWhile (· ≠ '.') ++ places text

/-- The value of a numeral without a sign. -/
def magnitude (text : List Char) : ℚ :=
  Nat.ofDigitChars 10 (digits text) 0 / 10 ^ (places text).length

/-- No magnitude is negative. -/
theorem magnitude_nonneg (text : List Char) : 0 ≤ magnitude text := by
  rw [magnitude]
  positivity

/-- The value of a numeral. -/
def value (text : List Char) : ℚ :=
  if text.head? = some '-' then -magnitude (dropSign text) else magnitude (dropSign text)

end Literal

namespace Decimal

variable {mantissa scale n : Nat} {digits : List Char}

/-- Digits have values below ten. -/
theorem digitValue_lt {c : Char} (h : c.isDigit = true) : digitValue c < 10 := by
  have hsplit : decide ('0'.val ≤ c.val) = true ∧ decide (c.val ≤ '9'.val) = true :=
    Bool.and_eq_true_iff.mp h
  have hlast : c.val.toNat ≤ 57 := of_decide_eq_true hsplit.2
  show c.val.toNat - 48 < 10
  omega

/-! ## Digits read one after the other -/

/-- The number which digits continue. -/
theorem ofDigitChars_cons (c : Char) (digits : List Char) (n : Nat) :
    Nat.ofDigitChars 10 (c :: digits) n = Nat.ofDigitChars 10 digits (n * 10 + digitValue c) := by
  rw [Nat.ofDigitChars_cons, Nat.mul_comm 10 n]
  rfl

/-- A number with further digits is that number, moved by as many places, and something less than
one at the last of its own places. -/
theorem ofDigitChars_bounds (h : ∀ c ∈ digits, c.isDigit = true) (n : Nat) :
    n * 10 ^ digits.length ≤ Nat.ofDigitChars 10 digits n ∧
      Nat.ofDigitChars 10 digits n < (n + 1) * 10 ^ digits.length := by
  induction digits generalizing n with
  | nil => simp
  | cons c digits ih =>
    obtain ⟨hc, hdigits⟩ := List.forall_mem_cons.mp h
    have hvalue := digitValue_lt hc
    obtain ⟨hlower, hupper⟩ := ih hdigits (n * 10 + digitValue c)
    rw [ofDigitChars_cons, List.length_cons, pow_succ]
    constructor
    · nlinarith
    · nlinarith

/-- The digits of a whole part are read if their number fits. -/
theorem readWhole_eq_some_iff (hdigits : ∀ c ∈ digits, c.isDigit = true)
    (hmantissa : mantissa < mantissaBound) :
    readWhole mantissa digits = some n ↔
      n = Nat.ofDigitChars 10 digits mantissa ∧ n < mantissaBound := by
  induction digits generalizing mantissa with
  | nil =>
    rw [readWhole, Nat.ofDigitChars_nil, Option.some.injEq]
    constructor
    · rintro rfl
      exact ⟨rfl, hmantissa⟩
    · rintro ⟨rfl, -⟩
      rfl
  | cons c digits ih =>
    obtain ⟨-, hdigits⟩ := List.forall_mem_cons.mp hdigits
    rw [readWhole, ofDigitChars_cons]
    split
    · next hfits => exact ih hdigits hfits
    · next hfits =>
      have hbound := (ofDigitChars_bounds hdigits (mantissa * 10 + digitValue c)).1
      have hpos : 0 < 10 ^ digits.length := by positivity
      constructor
      · rintro ⟨⟩
      · rintro ⟨rfl, hn⟩
        exact absurd (lt_of_le_of_lt (Nat.le_mul_of_pos_right _ hpos) (lt_of_le_of_lt hbound hn))
          hfits

/-! ## Rounding to two -/

/-- Whether a mantissa and a scale make two. -/
def isTwo (read : Nat × Nat) : Bool :=
  read.1 == 2 * Nat.pow 10 read.2

/-- Whether a number with so many places differs from two by less than half of the last place which
a decimal number has, or by exactly that half if it is below two. -/
def Near (n places : Nat) : Prop :=
  (2 * 10 ^ 29 - 5) * 10 ^ places ≤ n * 10 ^ 29 ∧ n * 10 ^ 29 < (2 * 10 ^ 29 + 5) * 10 ^ places

/-- A mantissa passes as two just if it is two with that many places. -/
theorem isTwo_eq_true_iff : isTwo (mantissa, scale) = true ↔ mantissa = 2 * 10 ^ scale := by
  rw [isTwo, beq_iff_eq]
  rfl

/-- More places make a larger power of ten. -/
theorem ten_pow_le {bound : Nat} (h : scale ≤ bound) : 10 ^ scale ≤ 10 ^ bound :=
  Nat.pow_le_pow_right (by decide) h

/-- A number with places which all fit is near to two only if it is two. -/
theorem near_iff_of_le (h : scale ≤ maxScale) : Near n scale ↔ n = 2 * 10 ^ scale := by
  have hpow : 10 ^ scale ≤ 10 ^ 28 := ten_pow_le h
  have hpos : 0 < 10 ^ scale := by positivity
  rw [Near]
  generalize 10 ^ scale = p at hpow hpos ⊢
  constructor <;> omega

/-- Of the places from the twenty-ninth on, only the first decides whether a number is near to two.
-/
theorem near_iff_of_bounds {k next : Nat} (hlower : next * 10 ^ k ≤ n)
    (hupper : n < (next + 1) * 10 ^ k) :
    Near n (maxScale + (k + 1)) ↔ 2 * 10 ^ 29 - 5 ≤ next ∧ next < 2 * 10 ^ 29 + 5 := by
  have hpow : 10 ^ (maxScale + (k + 1)) = 10 ^ 29 * 10 ^ k := by
    rw [← pow_add]
    congr 1
    rw [maxScale]
    omega
  rw [Near, hpow]
  generalize 10 ^ k = q at hlower hupper ⊢
  constructor
  · rintro ⟨hbelow, habove⟩
    have hbelow' : (2 * 10 ^ 29 - 5) * q < (next + 1) * q := by omega
    have habove' : next * q < (2 * 10 ^ 29 + 5) * q := by omega
    exact ⟨Nat.le_of_lt_succ (Nat.lt_of_mul_lt_mul_right hbelow'),
      Nat.lt_of_mul_lt_mul_right habove'⟩
  · rintro ⟨hbelow, habove⟩
    have hbelow' : (2 * 10 ^ 29 - 5) * q ≤ next * q := Nat.mul_le_mul_right q hbelow
    have habove' : (next + 1) * q ≤ (2 * 10 ^ 29 + 5) * q := Nat.mul_le_mul_right q habove
    omega

/-- With all places taken, rounding by the next one makes two if that is near. -/
theorem any_isTwo_round_iff {digit : Nat} (hdigit : digit < 10)
    (hmantissa : mantissa < mantissaBound) :
    (round mantissa maxScale digit).any isTwo = true ↔
      2 * 10 ^ 29 - 5 ≤ mantissa * 10 + digit ∧ mantissa * 10 + digit < 2 * 10 ^ 29 + 5 := by
  have hbound : mantissaBound = 79228162514264337593543950336 := rfl
  rw [round]
  split
  · rw [Option.any_some, isTwo_eq_true_iff, maxScale]
    omega
  split
  · rw [Option.any_some, isTwo_eq_true_iff, maxScale]
    omega
  · rw [if_neg (by decide), Option.any_some, isTwo_eq_true_iff, maxScale]
    omega

/-- A mantissa to which no further place can be added is rounded to something above two, if it has
less places than fit. -/
theorem any_isTwo_round_of_full {digit : Nat} (hscale : scale < maxScale)
    (hfull : mantissaBound ≤ mantissa * 10 + digit) (hdigit : digit < 10) :
    (round mantissa scale digit).any isTwo = false := by
  have hbound : mantissaBound = 79228162514264337593543950336 := rfl
  have hpow : 10 ^ scale ≤ 10 ^ 27 := ten_pow_le (Nat.le_of_lt_succ hscale)
  have hpow' : 10 ^ (scale - 1) ≤ 10 ^ 27 := ten_pow_le (by rw [maxScale] at hscale; omega)
  rw [Bool.eq_false_iff, round]
  split
  · rw [Option.any_some, ne_eq, isTwo_eq_true_iff]
    omega
  split
  · rw [Option.any_some, ne_eq, isTwo_eq_true_iff]
    omega
  split
  · rintro ⟨⟩
  · rw [Option.any_some, ne_eq, isTwo_eq_true_iff]
    omega

/-- A number whose first digits do not fit is not near to two, if it has few places. -/
theorem not_near_of_full {k places : Nat} (hplaces : places ≤ maxScale + k)
    (hfull : mantissaBound * 10 ^ k ≤ n) : ¬ Near n places := by
  have hbound : mantissaBound = 79228162514264337593543950336 := rfl
  have hpow : 10 ^ places ≤ 10 ^ 28 * 10 ^ k := by
    rw [← pow_add]
    exact ten_pow_le hplaces
  rw [hbound] at hfull
  rintro ⟨-, habove⟩
  have hpos : 0 < 10 ^ k := by positivity
  generalize 10 ^ k = q at *
  generalize 10 ^ places = p at *
  omega

/-- The digits of a fraction are read as two if the number is near to two. -/
theorem any_isTwo_readFraction_iff (hdigits : ∀ c ∈ digits, c.isDigit = true)
    (hmantissa : mantissa < mantissaBound) (hscale : scale ≤ maxScale) :
    (readFraction mantissa scale digits).any isTwo = true ↔
      Near (Nat.ofDigitChars 10 digits mantissa) (scale + digits.length) := by
  induction digits generalizing mantissa scale with
  | nil =>
    rw [readFraction, Option.any_some, isTwo_eq_true_iff, Nat.ofDigitChars_nil]
    exact (near_iff_of_le hscale).symm
  | cons c digits ih =>
    obtain ⟨hc, hdigits⟩ := List.forall_mem_cons.mp hdigits
    have hvalue := digitValue_lt hc
    obtain ⟨hlower, hupper⟩ := ofDigitChars_bounds hdigits (mantissa * 10 + digitValue c)
    rw [readFraction, ofDigitChars_cons, List.length_cons]
    split
    · next hfits =>
      rw [ih hdigits hfits.2 hfits.1, Nat.succ_add_eq_add_succ]
    · next hfits =>
      -- the digit is rounded, either because all places are taken or because the mantissa is full
      obtain rfl | hless := Nat.eq_or_lt_of_le hscale
      · rw [any_isTwo_round_iff hvalue hmantissa, near_iff_of_bounds hlower hupper]
      · have hfull : mantissaBound ≤ mantissa * 10 + digitValue c :=
          Nat.le_of_not_lt fun hnext => hfits ⟨hless, hnext⟩
        have hlarge := Nat.le_trans (Nat.mul_le_mul_right _ hfull) hlower
        rw [any_isTwo_round_of_full hless hfull hvalue]
        exact iff_of_false Bool.false_ne_true (not_near_of_full (by omega) hlarge)

/-! ## Numerals which are read as two -/

/-- The mantissa and the scale which are read from a numeral without a sign. -/
def readUnsigned (unsigned : List Char) : Option (Nat × Nat) :=
  (readWhole 0 (unsigned.takeWhile (· ≠ '.'))).bind fun mantissa =>
    readFraction mantissa 0 (Literal.places unsigned)

/-- In an unsigned literal there are digits on both sides of the point. -/
theorem isDigit_of_isUnsigned {unsigned : List Char} (h : Literal.isUnsigned unsigned = true) :
    (∀ c ∈ unsigned.takeWhile (· ≠ '.'), c.isDigit = true) ∧
      ∀ c ∈ Literal.places unsigned, c.isDigit = true := by
  rw [Literal.isUnsigned, Bool.and_eq_true] at h
  refine ⟨(Literal.isDigits_iff.mp h.1).2, ?_⟩
  rw [Literal.places]
  cases hrest : unsigned.dropWhile (· ≠ '.') with
  | nil => exact List.forall_mem_nil _
  | cons point places =>
    rw [hrest] at h
    exact (Literal.isDigits_iff.mp h.2).2

/-- A numeral without a sign is read as two if it is near to two. -/
theorem any_isTwo_readUnsigned_iff {unsigned : List Char}
    (h : Literal.isUnsigned unsigned = true) :
    (readUnsigned unsigned).any isTwo = true ↔
      Near (Nat.ofDigitChars 10 (Literal.digits unsigned) 0) (Literal.places unsigned).length := by
  obtain ⟨hwhole, hplaces⟩ := isDigit_of_isUnsigned h
  have hread := fun n => @readWhole_eq_some_iff 0 n _ hwhole (by decide)
  rw [Literal.digits, Nat.ofDigitChars_append, readUnsigned]
  cases hmantissa : readWhole 0 (unsigned.takeWhile (· ≠ '.')) with
  | some mantissa =>
    obtain ⟨rfl, hfits⟩ := (hread mantissa).mp hmantissa
    rw [Option.bind_some, any_isTwo_readFraction_iff hplaces hfits (Nat.zero_le _), Nat.zero_add]
  | none =>
    have hfull : mantissaBound ≤ Nat.ofDigitChars 10 (unsigned.takeWhile (· ≠ '.')) 0 := by
      by_contra hfits
      rw [(hread _).mpr ⟨rfl, Nat.lt_of_not_le hfits⟩] at hmantissa
      cases hmantissa
    have hlarge := Nat.le_trans (Nat.mul_le_mul_right _ hfull) (ofDigitChars_bounds hplaces _).1
    exact iff_of_false Bool.false_ne_true (not_near_of_full (Nat.le_add_left _ _) hlarge)

/-- What is read from a numeral without a sign gets the sign in front of it, unless it is zero. -/
theorem ofText?_eq {text : String} {negative : Bool} {unsigned : List Char}
    (hsplit : splitSign text.toList = (negative, unsigned))
    (h : Literal.isUnsigned unsigned = true) :
    ofText? text = (readUnsigned unsigned).map fun read =>
      ⟨negative && read.1 != 0, read.1, read.2⟩ := by
  obtain ⟨hwhole, hplaces⟩ := isDigit_of_isUnsigned h
  have hdigits : (Literal.digits unsigned).all Char.isDigit = true := by
    rw [Literal.digits, List.all_append, List.all_eq_true.mpr hwhole, List.all_eq_true.mpr hplaces]
    rfl
  have hne : (Literal.digits unsigned).isEmpty = false := by
    rw [Literal.isUnsigned, Bool.and_eq_true, Literal.isDigits_iff] at h
    rw [Literal.digits, List.isEmpty_eq_false_iff]
    exact List.append_ne_nil_of_left_ne_nil h.1.1 _
  rw [Literal.digits, Literal.places] at hdigits hne
  rw [ofText?, hsplit, readUnsigned, Literal.places]
  simp only [hdigits, hne, Bool.not_true, Bool.or_false, Bool.false_eq_true, ↓reduceIte]
  cases readWhole 0 (unsigned.takeWhile (· ≠ '.')) with
  | none => rfl
  | some mantissa =>
    show readFraction mantissa 0 ((unsigned.dropWhile (· ≠ '.')).drop 1) >>= _ =
      (readFraction mantissa 0 ((unsigned.dropWhile (· ≠ '.')).drop 1)).map _
    cases readFraction mantissa 0 ((unsigned.dropWhile (· ≠ '.')).drop 1) <;> rfl

/-- A numeral behind a sign is read as two if what is behind the sign is, and the sign is no minus.
-/
theorem any_hasValue_eq {text : String} {negative : Bool} {unsigned : List Char}
    (hsplit : splitSign text.toList = (negative, unsigned))
    (h : Literal.isUnsigned unsigned = true) :
    (ofText? text).any (·.hasValue 2) = (!negative && (readUnsigned unsigned).any isTwo) := by
  rw [ofText?_eq hsplit h, Option.any_map]
  cases readUnsigned unsigned with
  | none => rw [Option.any_none, Option.any_none, Bool.and_false]
  | some read =>
    rw [Option.any_some, Option.any_some]
    show (!(negative && read.1 != 0) && isTwo read) = (!negative && isTwo read)
    cases htwo : isTwo read with
    | false => rw [Bool.and_false, Bool.and_false]
    | true =>
      have hpos : read.1 ≠ 0 := by
        rw [isTwo_eq_true_iff.mp htwo]
        positivity
      rw [bne_iff_ne.mpr hpos, Bool.and_true, Bool.and_true, Bool.and_true]

/-- A number with places is near to two just if its rational value lies in an interval around two.
-/
theorem near_iff {n places : Nat} :
    Near n places ↔ 2 - 5 / 10 ^ 29 ≤ (n / 10 ^ places : ℚ) ∧
      (n / 10 ^ places : ℚ) < 2 + 5 / 10 ^ 29 := by
  have hpos : (0 : ℚ) < 10 ^ places := by positivity
  have hbelow : (2 * 10 ^ 29 - 5) * 10 ^ places ≤ n * 10 ^ 29 ↔
      ((2 * 10 ^ 29 - 5) * 10 ^ places : ℚ) ≤ n * 10 ^ 29 := by
    norm_num
    exact_mod_cast Iff.rfl
  have habove : n * 10 ^ 29 < (2 * 10 ^ 29 + 5) * 10 ^ places ↔
      (n * 10 ^ 29 : ℚ) < (2 * 10 ^ 29 + 5) * 10 ^ places := by
    exact_mod_cast Iff.rfl
  rw [Near, hbelow, habove, le_div_iff₀ hpos, div_lt_iff₀ hpos]
  constructor
  · rintro ⟨hlower, hupper⟩
    constructor <;> linarith
  · rintro ⟨hlower, hupper⟩
    constructor <;> linarith

/-- A numeral is read as two if its value is two, or so close to it that rounding to the last place
which a decimal number has makes up for the difference. -/
theorem any_hasValue_two_iff {text : String} (h : isNumberLiteral text = true) :
    (ofText? text).any (·.hasValue 2) = true ↔
      2 - 5 / 10 ^ 29 ≤ Literal.value text.toList ∧
        Literal.value text.toList < 2 + 5 / 10 ^ 29 := by
  rw [isNumberLiteral] at h
  by_cases hsign : text.toList.head? = some '-'
  · obtain ⟨unsigned, htext⟩ := List.head?_eq_some_iff.mp hsign
    have hsplit : splitSign text.toList = (true, unsigned) := by rw [htext, splitSign]
    rw [htext] at h
    rw [any_hasValue_eq hsplit h, Literal.value, if_pos hsign]
    have hmagnitude := Literal.magnitude_nonneg (Literal.dropSign text.toList)
    refine iff_of_false Bool.false_ne_true fun hnear => ?_
    linarith [hnear.1]
  · rw [Literal.dropSign_eq_self hsign] at h
    have hsplit : splitSign text.toList = (false, text.toList) := by
      obtain ⟨c, rest, htext, hc⟩ := Literal.exists_digit_of_isUnsigned h
      rw [htext, splitSign]
      all_goals
        rintro rest ⟨⟩
        cases hc
    rw [any_hasValue_eq hsplit h, Literal.value, if_neg hsign, Literal.dropSign_eq_self hsign,
      Literal.magnitude, ← near_iff, ← any_isTwo_readUnsigned_iff h]
    rfl

/-- With no more places than a decimal number has, nothing is so close to two but two. -/
theorem near_two_iff {text : List Char} (hplaces : (Literal.places text).length ≤ maxScale) :
    2 - 5 / 10 ^ 29 ≤ Literal.value text ∧ Literal.value text < 2 + 5 / 10 ^ 29 ↔
      Literal.value text = 2 := by
  by_cases hsign : text.head? = some '-'
  · have hmagnitude := Literal.magnitude_nonneg (Literal.dropSign text)
    rw [Literal.value, if_pos hsign]
    refine iff_of_false (fun hnear => ?_) fun htwo => ?_
    · linarith [hnear.1]
    · linarith
  · have hpos : (10 ^ (Literal.places text).length : ℚ) ≠ 0 := by positivity
    rw [Literal.value, if_neg hsign, Literal.dropSign_eq_self hsign, Literal.magnitude, ← near_iff,
      near_iff_of_le hplaces, div_eq_iff hpos]
    exact_mod_cast Iff.rfl

end Decimal

end FormulaEditor
