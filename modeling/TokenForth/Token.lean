import TokenForth.Location
import TokenForth.Numeral
import TokenForth.Text.Escaped

/-!
# Tokens

A token is a lexeme with the location at which the reader stood after its last character. Most of
the library looks at the lexeme only.
-/
namespace TokenForth

inductive Lexeme where
  | colon
  | semicolon
  | number (value : Cell)
  | word (name : String)
  | quote (text : String)
  | comment (text : String)
  deriving DecidableEq, Repr, Inhabited

structure Token where
  lexeme : Lexeme
  location : Location
  deriving DecidableEq, Repr, Inhabited

namespace Lexeme

def render : Lexeme → String
  | colon => ":"
  | semicolon => ";"
  | number value => Numeral.decimal value
  | word name => name
  | quote text => ".\"" ++ text ++ "\""
  | comment text => "(" ++ text ++ ")"

def describe : Lexeme → String
  | colon => "Colon"
  | semicolon => "Semicolon"
  | number value => "IntValue(" ++ Numeral.decimal value ++ ")"
  | word name => "Word(" ++ name ++ ")"
  | quote text => "QuotedString(" ++ Text.quoted text ++ ")"
  | comment text => "Comment(" ++ text ++ ")"

end Lexeme

namespace Token

def name? (t : Token) : Option String :=
  match t.lexeme with
  | .word name => some name
  | _ => none

theorem name?_eq_some_iff {t : Token} {name : String} :
    t.name? = some name ↔ t.lexeme = .word name := by
  unfold name?
  split
  · next word hword => simp [hword]
  · next hother => simpa using hother name

def isNamed (t : Token) (name : String) : Bool := t.lexeme = .word name

def isColon (t : Token) : Bool := t.lexeme = .colon

def isSemicolon (t : Token) : Bool := t.lexeme = .semicolon

def render (t : Token) : String := t.lexeme.render

def describe (t : Token) : String := t.location.render ++ ": " ++ t.lexeme.describe

def renderAll (tokens : List Token) : String :=
  String.join (tokens.map fun t => t.render ++ " ")

end Token

end TokenForth
