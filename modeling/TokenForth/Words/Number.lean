import TokenForth.Machine

/-!
# Words for numbers, comparisons and bits

Results wrap around at the width of a cell, and a comparison gives a flag.
-/
namespace TokenForth

open Machine

def Machine.unary (f : Cell → Cell) : Exec Unit := do
  let a ← pop
  push (f a)

/-- Replaces the two top cells, of which the right operand is on top. -/
def Machine.binary (f : Cell → Cell → Cell) : Exec Unit := do
  let b ← pop
  let a ← pop
  push (f a b)

def Machine.comparison (f : Cell → Cell → Bool) : Exec Unit := binary fun a b => Cell.flag (f a b)

/-- Takes a dividend and, above it, a divisor other than zero. -/
def Machine.popOperands : Exec (Cell × Cell) := do
  let b ← pop
  let a ← pop
  if b = 0 then Exec.raise .divisionByZero else return (a, b)

def Arithmetic.run : Arithmetic → Exec Unit
  | add => binary (· + ·)
  | subtract => binary (· - ·)
  | multiply => binary (· * ·)
  | quotient => do
    let (a, b) ← popOperands
    push (a / b)
  | remainder => do
    let (a, b) ← popOperands
    push (a % b)
  | divide => do
    let (a, b) ← popOperands
    push (a % b)
    push (a / b)
  | absolute => unary fun a => if a < 0 then -a else a
  | negate => unary (- ·)
  | minimum => binary min
  | maximum => binary max

def Logic.run : Logic → Exec Unit
  | equal => comparison (· == ·)
  | different => comparison (· != ·)
  | less => comparison fun a b => a < b
  | greater => comparison fun a b => a > b
  | below => comparison fun a b => a.toUInt64 < b.toUInt64
  | isZero => unary fun a => Cell.flag (a == 0)
  | isNegative => unary fun a => Cell.flag (a < 0)
  | isPositive => unary fun a => Cell.flag (a > 0)
  | and => binary (· &&& ·)
  | or => binary (· ||| ·)
  | xor => binary (· ^^^ ·)
  | invert => unary (~~~ ·)

end TokenForth
