/-!
# Decimal numbers of bounded precision

A decimal number is a sign, a mantissa below 2^96 and at most 28 decimal places. Reading a text
keeps as many digits as fit. The first digit of the fraction which does not fit decides the
rounding, five and more going up, and the digits after it are dropped. The whole part has to fit.
-/

set_option autoImplicit false

namespace FormulaEditor

/-- The number `mantissa / 10 ^ scale`, with a sign. -/
structure Decimal where
  negative : Bool
  mantissa : Nat
  scale : Nat
  deriving DecidableEq, Repr

namespace Decimal

/-- Mantissas are below this bound. -/
def mantissaBound : Nat := Nat.pow 2 96

/-- The largest number of decimal places. -/
def maxScale : Nat := 28

/-- The value of a decimal digit. -/
def digitValue (c : Char) : Nat :=
  c.toNat - '0'.toNat

/-- The number written by the digits of a whole part, if it fits behind those already read. -/
def readWhole : Nat → List Char → Option Nat
  | mantissa, [] => some mantissa
  | mantissa, c :: digits =>
    let next := mantissa * 10 + digitValue c
    if next < mantissaBound then readWhole next digits else none

/-- The mantissa and scale after rounding by the first digit which does not fit. A mantissa which
grows out of its bound gives up one place. -/
def round (mantissa scale digit : Nat) : Option (Nat × Nat) :=
  if digit < 5 then some (mantissa, scale)
  else if mantissa + 1 < mantissaBound then some (mantissa + 1, scale)
  else if scale = 0 then none
  else some ((mantissa + 1 + 4) / 10, scale - 1)

/-- The mantissa and scale after the digits of a fraction. -/
def readFraction : Nat → Nat → List Char → Option (Nat × Nat)
  | mantissa, scale, [] => some (mantissa, scale)
  | mantissa, scale, c :: digits =>
    let next := mantissa * 10 + digitValue c
    if scale < maxScale ∧ next < mantissaBound then readFraction next (scale + 1) digits
    else round mantissa scale (digitValue c)

/-- A text without its sign, and whether the sign is a minus. -/
def splitSign : List Char → Bool × List Char
  | '-' :: text => (true, text)
  | '+' :: text => (false, text)
  | text => (false, text)

/-- Reads an optional sign, digits, and optionally a point and further digits. Digits may be
missing on one side of the point, but not on both. Every numeric literal is such a text, and on
such texts this is what the decimal arithmetic of the editor reads. That arithmetic may be more
generous with other texts: it takes an underscore behind a digit, and anything at all behind the
digit which decides the rounding. No literal looks like that, and here such texts have no value. -/
def ofText? (text : String) : Option Decimal :=
  let (negative, unsigned) := splitSign text.toList
  let whole := unsigned.takeWhile (· ≠ '.')
  let fraction := (unsigned.dropWhile (· ≠ '.')).drop 1
  if (whole ++ fraction).isEmpty || !(whole ++ fraction).all Char.isDigit then none
  else do
    let (mantissa, scale) ← readFraction (← readWhole 0 whole) 0 fraction
    return ⟨negative && mantissa != 0, mantissa, scale⟩

/-- Whether a decimal number has the value of a natural number. -/
def hasValue (number : Decimal) (n : Nat) : Bool :=
  !number.negative && number.mantissa == n * Nat.pow 10 number.scale

/-- The text of a decimal number, with all its places and at least one digit before the point. -/
def toText (number : Decimal) : String :=
  let digits := Nat.toDigits 10 number.mantissa
  let padded := List.replicate (number.scale + 1 - digits.length) '0' ++ digits
  let whole := padded.take (padded.length - number.scale)
  let fraction := padded.drop (padded.length - number.scale)
  String.ofList ((if number.negative then ['-'] else []) ++ whole ++
    (if number.scale = 0 then [] else '.' :: fraction))

end Decimal

end FormulaEditor
