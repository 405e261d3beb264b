import TokenForth.Cell

/-!
# Primitive words

The words that the machine carries out itself, in families by what they work on.
-/
namespace TokenForth

inductive Shuffle where
  | dup
  | drop
  | swap
  | copyUnder
  | rot
  | dupNonzero
  | dupPair
  | dropPair
  | swapPair
  | copyPairUnder
  | depth
  deriving DecidableEq, Repr

inductive Transfer where
  | toReturn
  | fromReturn
  | copyReturn
  | showReturn
  deriving DecidableEq, Repr

inductive Arithmetic where
  | add
  | subtract
  | multiply
  | quotient
  | remainder
  | divide
  | absolute
  | negate
  | minimum
  | maximum
  deriving DecidableEq, Repr

inductive Logic where
  | equal
  | different
  | less
  | greater
  | below
  | isZero
  | isNegative
  | isPositive
  | and
  | or
  | xor
  | invert
  deriving DecidableEq, Repr

inductive Storage where
  | declare
  | constant
  | store
  | fetch
  deriving DecidableEq, Repr

inductive Listing where
  | forget
  | words
  | see
  deriving DecidableEq, Repr

inductive Printing where
  | number
  | unsigned
  | aligned
  | stack
  | character
  | newline
  | spaces
  deriving DecidableEq, Repr

inductive Control where
  | radix (radix : Nat)
  | clear
  | abort
  | quit
  deriving DecidableEq, Repr

/-- Words that read a block of their own out of the running stream, and `LEAVE`. -/
inductive Flow where
  | conditional
  | counted
  | repeated
  | leave
  deriving DecidableEq, Repr

inductive Primitive where
  | shuffle (word : Shuffle)
  | transfer (word : Transfer)
  | arithmetic (word : Arithmetic)
  | logic (word : Logic)
  | storage (word : Storage)
  | listing (word : Listing)
  | printing (word : Printing)
  | control (word : Control)
  | flow (word : Flow)
  /-- Pushes a constant. -/
  | literal (value : Cell)
  /-- Does nothing. -/
  | inert
  /-- Prints where execution stands. -/
  | report
  deriving DecidableEq, Repr

end TokenForth
