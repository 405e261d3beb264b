/-!
# Ranges of characters

A class of characters as closed ranges of their codes. The tables beside this module follow the
properties of Unicode 17.0 outside ASCII.
-/
namespace TokenForth.Text

abbrev CodeRanges := Array (Nat × Nat)

/-- Whether a range of the class holds the character. -/
def CodeRanges.has (ranges : CodeRanges) (c : Char) : Bool :=
  ranges.any fun r => r.1 ≤ c.toNat && c.toNat ≤ r.2

end TokenForth.Text
