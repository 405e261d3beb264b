import TokenForth.Machine

/-!
# Words for the two stacks

Each word takes its cells one at a time from the top and then pushes its results, so a word that
finds too few cells has taken those that were there.
-/
namespace TokenForth

open Machine

/-- Pushes cells, the first at the bottom. -/
def Machine.pushAll : List Cell → Exec Unit
  | [] => pure ()
  | c :: rest => do push c; pushAll rest

def Shuffle.run : Shuffle → Exec Unit
  | dup => do
    let a ← pop
    pushAll [a, a]
  | drop => do
    let _ ← pop
  | swap => do
    let b ← pop
    let a ← pop
    pushAll [b, a]
  | copyUnder => do
    let b ← pop
    let a ← pop
    pushAll [a, b, a]
  | rot => do
    let c ← pop
    let b ← pop
    let a ← pop
    pushAll [b, c, a]
  | dupNonzero => do
    let a ← top
    if a ≠ 0 then push a
  | dupPair => do
    let b ← pop
    let a ← pop
    pushAll [a, b, a, b]
  | dropPair => do
    let _ ← popMany 2
  | swapPair => do
    let d ← pop
    let c ← pop
    let b ← pop
    let a ← pop
    pushAll [c, d, a, b]
  | copyPairUnder => do
    let d ← pop
    let c ← pop
    let b ← pop
    let a ← pop
    pushAll [a, b, c, d, a, b]
  | depth => do
    let m ← Exec.state
    push (Int64.ofNat m.data.depth)

/-- A stack with a space after it, unless it is empty. -/
def Stack.listing (s : Stack) (radix : Nat) : String :=
  if s.cells.isEmpty then s.render radix else s.render radix ++ " "

def Transfer.run : Transfer → Exec Unit
  | toReturn => do
    let c ← pop
    pushReturn c
  | fromReturn => do
    let c ← popReturn
    push c
  | copyReturn => do
    let c ← topReturn
    push c
  | showReturn => do
    let m ← Exec.state
    write (m.returns.listing m.radix)

end TokenForth
