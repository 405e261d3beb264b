import TokenForth.Cell

/-!
# Numerals

Cells are written and read in a radix from 2 to 36, with lower-case letters for the digits above
nine when written and letters of either case when read. A radix outside that range writes decimal.
-/
namespace TokenForth.Numeral

/-- The radixes that numbers can be written in. -/
def isRadix (radix : Nat) : Bool := 2 ≤ radix && radix ≤ 36

/-- The radix that numbers are written in when `radix` is asked for. -/
def writingRadix (radix : Nat) : Nat := if isRadix radix then radix else 10

/-- The digits of `n`, least significant first. -/
def digits (radix n : Nat) : List Nat :=
  if 2 ≤ radix ∧ radix ≤ n then n % radix :: digits radix (n / radix) else [n]
termination_by n
decreasing_by exact Nat.div_lt_self (by omega) (by omega)

def digitChar (d : Nat) : Char := if d < 10 then Char.ofNat (48 + d) else Char.ofNat (87 + d)

/-- The characters of `n` in a radix, most significant digit first. -/
def magnitude (radix n : Nat) : List Char := ((digits radix n).map digitChar).reverse

def signed (radix : Nat) (c : Cell) : String :=
  let text := magnitude (writingRadix radix) c.toInt.natAbs
  String.ofList (if c < 0 then '-' :: text else text)

def unsigned (radix : Nat) (c : Cell) : String :=
  String.ofList (magnitude (writingRadix radix) c.toUInt64.toNat)

def decimal (c : Cell) : String := signed 10 c

def digitValue? (c : Char) : Option Nat :=
  if '0' ≤ c ∧ c ≤ '9' then some (c.toNat - 48)
  else if 'a' ≤ c ∧ c ≤ 'z' then some (c.toNat - 87)
  else if 'A' ≤ c ∧ c ≤ 'Z' then some (c.toNat - 55)
  else none

def readFrom (radix : Nat) : Nat → List Char → Option Nat
  | n, [] => some n
  | n, c :: rest =>
    match digitValue? c with
    | some d => if d < radix then readFrom radix (n * radix + d) rest else none
    | none => none

def readMagnitude (radix : Nat) : List Char → Option Nat
  | [] => none
  | c :: rest => readFrom radix 0 (c :: rest)

/-- Reads a decimal number with an optional minus sign, if it fits a cell. -/
def literal? : List Char → Option Cell
  | '-' :: rest => (readMagnitude 10 rest).bind fun n => Cell.ofInt? (-(n : Int))
  | rest => (readMagnitude 10 rest).bind fun n => Cell.ofInt? n

/-- Reads a number with an optional sign, if it fits a cell. -/
def read? (radix : Nat) (text : String) : Option Cell :=
  if isRadix radix then
    match text.toList with
    | '-' :: rest => (readMagnitude radix rest).bind fun n => Cell.ofInt? (-(n : Int))
    | '+' :: rest => (readMagnitude radix rest).bind fun n => Cell.ofInt? n
    | rest => (readMagnitude radix rest).bind fun n => Cell.ofInt? n
  else none

end TokenForth.Numeral
