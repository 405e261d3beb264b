import TokenForth.Fault

/-!
# Blocks

A block is what stands between an opening word and the closing word that belongs to it, split into
segments by separating words. Blocks of one vocabulary nest, and an inner block hides its own
separators and its closing word from the outer one.
-/
namespace TokenForth

/-- The words that shape one kind of block. -/
structure Vocabulary where
  opener : String
  closers : List String
  separators : List String
  deriving DecidableEq, Repr

structure Block where
  /-- The tokens before the first separator. -/
  first : List Token
  /-- Each separator with the tokens after it. -/
  parts : List (Token × List Token)
  closer : Token
  deriving DecidableEq, Repr

namespace Block

def segments (b : Block) : List (List Token) := b.first :: b.parts.map (·.2)

def separators (b : Block) : List Token := b.parts.map (·.1)

def closerName (b : Block) : String := b.closer.name?.getD ""

def prepend (t : Token) (b : Block) : Block := { b with first := t :: b.first }

def split (t : Token) (b : Block) : Block := ⟨[], (t, b.first) :: b.parts, b.closer⟩

end Block

namespace Vocabulary

inductive Role where
  | opens
  | closes
  | separates
  | plain
  deriving DecidableEq, Repr

def role (v : Vocabulary) (t : Token) : Role :=
  match t.name? with
  | none => .plain
  | some name =>
    if name = v.opener then .opens
    else if v.closers.contains name then .closes
    else if v.separators.contains name then .separates
    else .plain

/-- The block that starts inside `depth` inner blocks, and the tokens after it. -/
def scanFrom (v : Vocabulary) : Nat → List Token → Option (Block × List Token)
  | _, [] => none
  | depth, t :: rest =>
    match v.role t, depth with
    | .opens, depth => (v.scanFrom (depth + 1) rest).map fun (b, after) => (b.prepend t, after)
    | .closes, 0 => some (⟨[], [], t⟩, rest)
    | .closes, depth + 1 => (v.scanFrom depth rest).map fun (b, after) => (b.prepend t, after)
    | .separates, 0 => (v.scanFrom 0 rest).map fun (b, after) => (b.split t, after)
    | .separates, depth + 1 =>
      (v.scanFrom (depth + 1) rest).map fun (b, after) => (b.prepend t, after)
    | .plain, depth => (v.scanFrom depth rest).map fun (b, after) => (b.prepend t, after)

/-- The block that follows its opening word, and the tokens after it. -/
def scan (v : Vocabulary) (tokens : List Token) : Option (Block × List Token) := v.scanFrom 0 tokens

def unclosed (v : Vocabulary) : Fault.Cause := .openBlock v.opener v.closers

def conditional : Vocabulary := ⟨"IF", ["THEN"], ["ELSE"]⟩

def counted : Vocabulary := ⟨"DO", ["LOOP", "+LOOP"], []⟩

def repeated : Vocabulary := ⟨"BEGIN", ["UNTIL", "AGAIN", "REPEAT"], ["WHILE"]⟩

end Vocabulary

/-- The index that a word stands for, given the indices of the open loops, innermost first. -/
def loopIndex? (indices : List Cell) (name : String) : Option Cell :=
  match name with
  | "I" => indices[0]?
  | "J" => indices[1]?
  | "K" => indices[2]?
  | _ => none

/-- Puts the index for a token that names one. -/
def Token.withIndex (indices : List Cell) (t : Token) : Token :=
  match t.name?.bind (loopIndex? indices) with
  | some index => ⟨.number index, t.location⟩
  | none => t

/-- Puts the indices for the words that name them, outside the inner loops of the body. -/
def substituteFrom (indices : List Cell) : Nat → List Token → List Token
  | _, [] => []
  | depth, t :: rest =>
    match Vocabulary.counted.role t with
    | .opens => t :: substituteFrom indices (depth + 1) rest
    | .closes => t :: substituteFrom indices (depth - 1) rest
    | _ =>
      (if depth = 0 then t.withIndex indices else t) :: substituteFrom indices depth rest

def substitute (indices : List Cell) (body : List Token) : List Token :=
  substituteFrom indices 0 body

end TokenForth
