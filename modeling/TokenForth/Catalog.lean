import TokenForth.Engine
import TokenForth.Text.Capital

/-!
# The words of a new machine

The catalog of primitive words in the order they are added, and the prelude, a source text that
defines some more words in terms of them.
-/
namespace TokenForth

namespace Catalog

/-- The radixes that have a name, in the order of their names. -/
def radixNames : List (String × Nat) := [("BINARY", 2), ("DECIMAL", 10), ("HEX", 16), ("OCTAL", 8)]

def radixNamed? (name : String) : Option Nat := radixNames.lookup (Text.upper name)

def entry (name : String) (primitive : Primitive) (description signature : String) : Word where
  name := name
  action := .primitive primitive
  description := description
  signature := signature

def radixWord (name : String) (radix : Nat) : Word :=
  entry name (.control (.radix radix))
    ("Switch to radix " ++ toString radix ++ " for printing and reading numbers.") " -- "

def controlWords : List Word :=
  radixNames.map (fun (name, radix) => radixWord name radix) ++ [
    entry "CLEAR" (.control .clear) "Empty both the data and return stacks." "... -- ",
    entry "ABORT" (.control .abort)
      "Abort execution with an optional message if the flag is true." "flag -- ",
    entry "QUIT" (.control .quit) "End the session." " -- ",
    entry "BYE" (.control .quit) "End the session." " -- "]

def shuffleWords : List Word := [
  entry "DUP" (.shuffle .dup) "Duplicate the top value on the data stack." "value -- value value",
  entry "DROP" (.shuffle .drop) "Discard the top value on the data stack." "value -- ",
  entry "SWAP" (.shuffle .swap) "Swap the top 2 values on the data stack." "a b -- b a",
  entry "OVER" (.shuffle .copyUnder) "Copy the second value to the top of the stack." "a b -- a b a",
  entry "ROT" (.shuffle .rot) "Rotate the third value to the top of the stack." "a b c -- b c a",
  entry "?DUP" (.shuffle .dupNonzero) "Duplicate the top value if it isn't zero."
    "value -- value value | 0",
  entry "2DUP" (.shuffle .dupPair) "Duplicate the top pair of values." "a b -- a b a b",
  entry "2DROP" (.shuffle .dropPair) "Discard the top pair of values." "a b -- ",
  entry "2SWAP" (.shuffle .swapPair) "Swap the top 2 pairs of values." "a b c d -- c d a b",
  entry "2OVER" (.shuffle .copyPairUnder) "Copy the second pair of values to the top."
    "a b c d -- a b c d a b",
  entry "DEPTH" (.shuffle .depth) "Get the depth of the stack before calling this word." " -- depth"]

def transferWords : List Word := [
  entry ">R" (.transfer .toReturn) "Move a value to the return stack." "value -- ",
  entry "R>" (.transfer .fromReturn) "Move a value back from the return stack." " -- value",
  entry "@R" (.transfer .copyReturn) "Copy the top of the return stack." " -- value",
  entry ".R" (.transfer .showReturn) "Print the contents of the return stack." " -- "]

def arithmeticWords : List Word := [
  entry "+" (.arithmetic .add) "Add 2 numbers together." "a b -- result",
  entry "-" (.arithmetic .subtract) "Subtract the top number from the one below it."
    "a b -- result",
  entry "*" (.arithmetic .multiply) "Multiply 2 numbers." "a b -- result",
  entry "/" (.arithmetic .quotient) "Divide 2 numbers, truncating toward zero." "a b -- result",
  entry "MOD" (.arithmetic .remainder) "Get the remainder of dividing 2 numbers."
    "a b -- remainder",
  entry "/MOD" (.arithmetic .divide)
    "Divide 2 numbers, giving both the remainder and the quotient." "a b -- remainder quotient",
  entry "ABS" (.arithmetic .absolute) "Get the absolute value of a number." "n -- |n|",
  entry "NEGATE" (.arithmetic .negate) "Flip the sign of a number." "n -- -n",
  entry "MIN" (.arithmetic .minimum) "Keep the smaller of 2 numbers." "a b -- min",
  entry "MAX" (.arithmetic .maximum) "Keep the larger of 2 numbers." "a b -- max"]

def logicWords : List Word := [
  entry "=" (.logic .equal) "Are 2 values equal?" "a b -- bool",
  entry "<>" (.logic .different) "Are 2 values different?" "a b -- bool",
  entry "<" (.logic .less) "Is a less than b?" "a b -- bool",
  entry ">" (.logic .greater) "Is a greater than b?" "a b -- bool",
  entry "U<" (.logic .below) "Is a less than b when both are read as unsigned?" "a b -- bool",
  entry "0=" (.logic .isZero) "Is the value zero?" "value -- bool",
  entry "0<" (.logic .isNegative) "Is the value negative?" "value -- bool",
  entry "0>" (.logic .isPositive) "Is the value positive?" "value -- bool",
  entry "AND" (.logic .and) "Bitwise AND the 2 values." "a b -- result",
  entry "OR" (.logic .or) "Bitwise OR the 2 values." "a b -- result",
  entry "XOR" (.logic .xor) "Bitwise XOR the 2 values." "a b -- result",
  entry "INVERT" (.logic .invert) "Flip every bit of the value." "value -- inverted"]

def listingWords : List Word := [
  entry "FORGET" (.listing .forget)
    "Remove the next word along with everything defined after it." " -- ",
  entry "WORDS" (.listing .words) "List the words in the dictionary." " -- ",
  entry "SEE" (.listing .see) "Show the definition of the next word." " -- "]

def storageWords : List Word := [
  entry "VARIABLE" (.storage .declare) "Declare a variable named by the next word." " -- ",
  entry "CONSTANT" (.storage .constant)
    "Define the next word as a constant holding the top value." "value -- ",
  entry "!" (.storage .store) "Store a value at a variable's address." "value address -- ",
  entry "@" (.storage .fetch) "Fetch the value at a variable's address." "address -- value"]

def printingWords : List Word := [
  entry "." (.printing .number) "Print the top value in the current radix." "value -- ",
  entry "U." (.printing .unsigned) "Print the top value as an unsigned number." "value -- ",
  entry ".RIGHT" (.printing .aligned)
    "Print a value right aligned in a field of the given width." "value width -- ",
  entry ".S" (.printing .stack) "Print the contents of the data stack." " -- ",
  entry "EMIT" (.printing .character) "Print the character with the given code." "code -- ",
  entry "CR" (.printing .newline) "Print a new line." " -- ",
  entry "SPACES" (.printing .spaces) "Print the given number of spaces." "count -- "]

def flowWords : List Word := [
  entry "IF" (.flow .conditional) "Run code conditionally, IF ... THEN or IF ... ELSE ... THEN."
    "flag -- ",
  entry "DO" (.flow .counted) "Counted loop, DO ... LOOP or DO ... +LOOP." "limit start -- ",
  entry "BEGIN" (.flow .repeated)
    "Conditional loop, BEGIN ... UNTIL, BEGIN ... AGAIN or BEGIN ... WHILE ... REPEAT." " -- ",
  entry "LEAVE" (.flow .leave) "Exit the innermost enclosing loop." " -- "]

def words : List Word :=
  controlWords ++ shuffleWords ++ transferWords ++ arithmeticWords ++ logicWords ++ listingWords ++
    storageWords ++ printingWords ++ flowWords

/-- The words that are defined by other words. -/
def preludeText : String := "
    : 1+ 1 + ;
    : 1- 1 - ;
    : 2+ 2 + ;
    : 2- 2 - ;
    : 2* 2 * ;
    : 2/ 2 / ;

    : TRUE -1 ;
    : FALSE 0 ;

    ( addr -- ) : ? @ . ;
    ( addr -- ) : !+ DUP @ 1 + SWAP ! ;
"

end Catalog

namespace Machine

def bare (config : Config) : Machine :=
  { blank config with dictionary := ⟨Catalog.words.reverse⟩ }

/-- A new machine, which is what the prelude makes of a bare one: it executes comments only, and 8
steps are enough for them. -/
def new (config : Config) : Machine :=
  (process 8 "<prelude>" Catalog.preludeText (bare config)).machineD (bare config)

end Machine

end TokenForth
