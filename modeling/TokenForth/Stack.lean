import TokenForth.Numeral

/-!
# Stacks of cells

A stack knows the greatest depth it has had. It keeps that as the number of free places below the
greatest depth, so that pushing into a free place uses it up and popping frees one.
-/
namespace TokenForth

structure Stack where
  /-- The cells, top first. -/
  cells : List Cell := []
  /-- How far the stack is below its greatest depth. -/
  free : Nat := 0
  deriving DecidableEq, Repr, Inhabited

namespace Stack

def empty : Stack := {}

def depth (s : Stack) : Nat := s.cells.length

def peak (s : Stack) : Nat := s.cells.length + s.free

def push (s : Stack) (c : Cell) : Stack := ⟨c :: s.cells, s.free - 1⟩

def pop? (s : Stack) : Option (Cell × Stack) :=
  match s.cells with
  | [] => none
  | c :: cells => some (c, ⟨cells, s.free + 1⟩)

def top? (s : Stack) : Option Cell := s.cells.head?

def popMany? (s : Stack) (n : Nat) : Option (List Cell × Stack) :=
  if n ≤ s.cells.length then some (s.cells.take n, ⟨s.cells.drop n, s.free + n⟩) else none

def clear (s : Stack) : Stack := ⟨[], s.peak⟩

def render (s : Stack) (radix : Nat) : String :=
  match s.cells with
  | [] => "<0> EMPTY"
  | cells =>
    "<" ++ toString cells.length ++ "> " ++
      " ".intercalate (cells.reverse.map (Numeral.signed radix))

end Stack

end TokenForth
