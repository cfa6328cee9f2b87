/-!
# Sets of characters as ranges of code points

A set of characters is a list of closed ranges. Membership is decided by going through the list,
so that it can be computed inside a proof.
-/

set_option autoImplicit false

namespace FormulaEditor.Text

/-- A set of characters, as closed ranges of code points in ascending order. -/
abbrev Ranges := List (Nat × Nat)

/-- Whether a character lies in one of the ranges. -/
def Ranges.covers (ranges : Ranges) (c : Char) : Bool :=
  ranges.any fun range => range.1 ≤ c.toNat && c.toNat ≤ range.2

end FormulaEditor.Text
