import TokenForth.Primitive
import TokenForth.Text.Column
import TokenForth.Token

/-!
# The dictionary

The dictionary holds bindings in the order they were made, and a name means its newest binding. So
a new binding hides an older one of the same name, and forgetting a name brings the older one back.
-/
namespace TokenForth

inductive Action where
  | primitive (primitive : Primitive)
  /-- Runs a token list. -/
  | body (tokens : List Token)
  deriving DecidableEq, Repr

structure Word where
  name : String
  action : Action
  /-- Where the word was defined; the words of the catalog have no such place. -/
  location : Option Location := none
  description : String := ""
  signature : String := ""
  deriving DecidableEq, Repr

namespace Word

def isPrimitive (w : Word) : Bool :=
  match w.action with
  | .primitive _ => true
  | .body _ => false

/-- The word as it would be defined, with a placeholder for what is not a token list. -/
def render (w : Word) : String :=
  match w.action with
  | .primitive _ => ": " ++ w.name ++ "   <builtin> ;"
  | .body tokens => ": " ++ w.name ++ "   " ++ Token.renderAll tokens ++ ";"

/-- The line of a word in a listing whose names take `width` characters. -/
def listingLine (width : Nat) (w : Word) : String :=
  Text.alignLeft width w.name ++ "  " ++
    Text.alignLeft 7 (if w.isPrimitive then "builtin" else "user") ++ "  " ++
    Text.alignLeft 16 w.signature ++ "  --  " ++ w.description ++ "\n"

end Word

structure Dictionary where
  /-- The bindings, newest first. -/
  words : List Word := []
  deriving DecidableEq, Repr

namespace Dictionary

def empty : Dictionary := {}

def size (d : Dictionary) : Nat := d.words.length

def add (d : Dictionary) (w : Word) : Dictionary := ⟨w :: d.words⟩

def get? (d : Dictionary) (name : String) : Option Word := d.words.find? (·.name = name)

/-- The bindings made since the newest binding of a name, that one included. -/
def since (d : Dictionary) (name : String) : List Word :=
  d.words.takeWhile (·.name ≠ name) ++ (d.words.dropWhile (·.name ≠ name)).take 1

/-- The bindings made before the newest binding of a name. -/
def before (d : Dictionary) (name : String) : List Word := (d.words.dropWhile (·.name ≠ name)).drop 1

/-- How many bindings are older than the newest binding of a name. -/
def position? (d : Dictionary) (name : String) : Option Nat :=
  (d.get? name).map fun _ => (d.before name).length

/-- Takes back the newest binding of a name with all that came after it. Gives what was taken back,
in the order it was added. -/
def forget? (d : Dictionary) (name : String) : Option (List Word × Dictionary) :=
  (d.get? name).map fun _ => ((d.since name).reverse, ⟨d.before name⟩)

def toList (d : Dictionary) : List Word := d.words.reverse

/-- The bindings that are the newest of their names, newest first. -/
def newest : List Word → List Word
  | [] => []
  | w :: words => w :: (newest words).filter (·.name ≠ w.name)

/-- The bindings that are not hidden, in the order they were made. -/
def visible (d : Dictionary) : List Word := (newest d.words).reverse

/-- The width of the name column, the size of the longest name in bytes. -/
def nameWidth (words : List Word) : Nat := (words.map (·.name.utf8ByteSize)).foldl max 0

def render (d : Dictionary) : String :=
  let words := d.visible
  toString words.length ++ " words defined.\n\n" ++
    String.join (words.map (Word.listingLine (nameWidth words)))

end Dictionary

end TokenForth
