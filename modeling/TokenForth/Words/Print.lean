import TokenForth.Words.Stack

/-!
# Words that print

Printed text is gathered in the output of the running statement. Space is printed up to a limit.
-/
namespace TokenForth

open Machine

/-- The greatest width of printed space. -/
def widthLimit : Nat := 4096

/-- A cell as a width; negative cells count as zero. -/
def Machine.checkWidth (width : Cell) : Exec Nat :=
  if width.toInt.toNat > widthLimit then Exec.raise (.widthOutOfRange width)
  else pure width.toInt.toNat

def character? (code : Cell) : Option Char :=
  if 0 ≤ code then
    let n := code.toInt.toNat
    if n.isValidChar then some (Char.ofNat n) else none
  else none

def Printing.run : Printing → Exec Unit
  | number => do
    let c ← pop
    let m ← Exec.state
    write (Numeral.signed m.radix c ++ " ")
  | unsigned => do
    let c ← pop
    let m ← Exec.state
    write (Numeral.unsigned m.radix c ++ " ")
  | aligned => do
    let width ← pop
    let c ← pop
    let m ← Exec.state
    let width ← checkWidth width
    write (Text.alignRight width (Numeral.signed m.radix c))
  | stack => do
    let m ← Exec.state
    write (m.data.listing m.radix)
  | character => do
    let code ← pop
    match character? code with
    | some c => write c.toString
    | none => Exec.raise (.notACharacter code)
  | newline => write "\n"
  | spaces => do
    let count ← pop
    let width ← checkWidth count
    write (Text.spaces width)

end TokenForth
