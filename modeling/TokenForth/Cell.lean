/-!
# Cells

The machine computes with signed 64-bit cells. Sums and products wrap around, division truncates
toward zero, and a cell read as a flag is true unless it is zero.
-/
namespace TokenForth

abbrev Cell := Int64

namespace Cell

/-- Every cell but zero counts as true. -/
def isTrue (c : Cell) : Bool := c != 0

/-- The flag for a truth value: all bits set for true, no bit set for false. -/
def flag (b : Bool) : Cell := if b then -1 else 0

/-- The cell that holds an integer, if the integer is in range. -/
def ofInt? (n : Int) : Option Cell :=
  if -9223372036854775808 ≤ n ∧ n ≤ 9223372036854775807 then some (Int64.ofInt n) else none

def add? (a b : Cell) : Option Cell := ofInt? (a.toInt + b.toInt)

end Cell

end TokenForth
