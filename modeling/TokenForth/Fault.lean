import TokenForth.Token

/-!
# Faults

A fault is a cause, the location it was met at, and for a fault of a running machine the calls
that were open. Every cause has one kind and one message.
-/
namespace TokenForth

structure Call where
  word : String
  location : Location
  deriving DecidableEq, Repr, Inhabited

def Call.render (call : Call) : String := call.location.render ++ ": " ++ call.word

namespace Fault

inductive Kind where
  | unterminatedComment
  | unterminatedString
  | unexpectedToken
  | missingTerminator
  | missingWordName
  | unterminatedBlock
  | malformedBlock
  | unknownWord
  | stackUnderflow
  | userAbort
  | loopExit
  | unbalancedReturnStack
  | divisionByZero
  | invalidAddress
  | invalidCharacter
  | outOfRange
  | callDepthExceeded
  | exitRequested
  | internal
  deriving DecidableEq, Repr, Inhabited

inductive Cause where
  | openComment
  | openQuote
  | strayParenthesis
  | openDefinition
  /-- A definition that does not start with a word. -/
  | unnamedDefinition
  /-- Something else where the name of a word is read. -/
  | notAName (found : Lexeme)
  /-- The tokens ran out where one was needed. -/
  | endOfTokens
  | openBlock (opener : String) (closers : List String)
  | secondElse
  | secondWhile
  | repeatWithoutWhile
  | whileBefore (closer : String)
  | unknownWord (name : String)
  | underflow
  | underflowOf (needed found : Nat)
  | returnUnderflow
  | aborted (message : String)
  /-- The signal that ends the innermost loop. -/
  | leave
  | unbalanced (name : String) (before after : Nat)
  | divisionByZero
  | neverAllocated (address : Cell)
  | notACharacter (code : Cell)
  | radixOutOfRange (radix : Nat)
  | widthOutOfRange (width : Cell)
  | tooDeep (limit : Nat) (name : String)
  /-- The signal that ends the session. -/
  | exit
  | noStream
  | strayLexeme (lexeme : Lexeme)
  /-- A failure of the file system or of standard input. -/
  | system (reason : String)
  deriving DecidableEq, Repr, Inhabited

namespace Kind

def name : Kind → String
  | unterminatedComment => "UnterminatedComment"
  | unterminatedString => "UnterminatedString"
  | unexpectedToken => "UnexpectedToken"
  | missingTerminator => "MissingTerminator"
  | missingWordName => "MissingWordName"
  | unterminatedBlock => "UnterminatedBlock"
  | malformedBlock => "MalformedBlock"
  | unknownWord => "UnknownWord"
  | stackUnderflow => "StackUnderflow"
  | userAbort => "UserAbort"
  | loopExit => "LoopExit"
  | unbalancedReturnStack => "UnbalancedReturnStack"
  | divisionByZero => "DivisionByZero"
  | invalidAddress => "InvalidAddress"
  | invalidCharacter => "InvalidCharacter"
  | outOfRange => "OutOfRange"
  | callDepthExceeded => "CallDepthExceeded"
  | exitRequested => "ExitRequested"
  | internal => "Internal"

/-- Kinds met while characters are grouped into tokens. -/
def isLexical : Kind → Bool
  | unterminatedComment | unterminatedString | unexpectedToken => true
  | _ => false

/-- Kinds met where a definition or the name of a word is incomplete. -/
def isStructural : Kind → Bool
  | missingTerminator | missingWordName => true
  | _ => false

end Kind

namespace Cause

def kind : Cause → Kind
  | openComment => .unterminatedComment
  | openQuote => .unterminatedString
  | strayParenthesis => .unexpectedToken
  | openDefinition => .missingTerminator
  | unnamedDefinition | notAName _ | endOfTokens => .missingWordName
  | openBlock _ _ => .unterminatedBlock
  | secondElse | secondWhile | repeatWithoutWhile | whileBefore _ => .malformedBlock
  | unknownWord _ => .unknownWord
  | underflow | underflowOf _ _ | returnUnderflow => .stackUnderflow
  | aborted _ => .userAbort
  | leave => .loopExit
  | unbalanced _ _ _ => .unbalancedReturnStack
  | divisionByZero => .divisionByZero
  | neverAllocated _ => .invalidAddress
  | notACharacter _ => .invalidCharacter
  | radixOutOfRange _ | widthOutOfRange _ => .outOfRange
  | tooDeep _ _ => .callDepthExceeded
  | exit => .exitRequested
  | noStream | strayLexeme _ | system _ => .internal

def message : Cause → String
  | openComment => "Unexpected end of input in comment."
  | openQuote => "Unexpected end of input in string literal."
  | strayParenthesis => "Unexpected ) outside of a comment."
  | openDefinition => "Missing ';' terminator."
  | unnamedDefinition => "A definition must start with the name of the new word."
  | notAName found => "Expected a word name, found " ++ found.render ++ "."
  | endOfTokens => "Reading past end of token stream."
  | openBlock opener closers =>
    "Unterminated " ++ opener ++ " block, expected one of " ++ ", ".intercalate closers ++ "."
  | secondElse => "Only one ELSE is allowed in an IF block."
  | secondWhile => "Only one WHILE is allowed in a BEGIN block."
  | repeatWithoutWhile => "BEGIN ... REPEAT needs a WHILE."
  | whileBefore closer => "WHILE can not be used with " ++ closer ++ "."
  | unknownWord name => "Word " ++ name ++ " not found."
  | underflow => "Stack underflow."
  | underflowOf needed found =>
    "Stack underflow, needed " ++ toString needed ++ " values but found " ++ toString found ++ "."
  | returnUnderflow => "Return stack underflow."
  | aborted message => message
  | leave => "LEAVE used outside of a loop."
  | unbalanced name before after =>
    "Word " ++ name ++ " changed the return stack depth from " ++ toString before ++ " to " ++
      toString after ++ "."
  | divisionByZero => "Division by zero."
  | neverAllocated address => "Address " ++ Numeral.decimal address ++ " was never allocated."
  | notACharacter code => Numeral.decimal code ++ " is not a valid character code."
  | radixOutOfRange radix => "Radix " ++ toString radix ++ " is out of range 2 to 36."
  | widthOutOfRange width =>
    "Width " ++ Numeral.decimal width ++ " is larger than the limit of 4096."
  | tooDeep limit name => "Maximum call depth of " ++ toString limit ++ " exceeded in " ++ name ++ "."
  | exit => "Exit requested."
  | noStream => "No token stream is active."
  | strayLexeme lexeme => "Unexpected token " ++ lexeme.render ++ " in executable code."
  | system reason => "I/O error: " ++ reason

end Cause

end Fault

structure Fault where
  cause : Fault.Cause
  location : Option Location := none
  /-- The open calls, innermost first, if a machine was running. -/
  trace : Option (List Call) := none
  deriving DecidableEq, Repr, Inhabited

namespace Fault

def kind (f : Fault) : Kind := f.cause.kind

def message (f : Fault) : String := f.cause.message

/-- A fault of source text, with no machine running. -/
def atSource (cause : Cause) (location : Location) : Fault := ⟨cause, some location, none⟩

/-- The signal of `LEAVE`, which every loop catches. -/
def isLeave (f : Fault) : Bool := f.cause = .leave

def isExit (f : Fault) : Bool := f.cause = .exit

/-- A source that more text may still complete. -/
def isIncomplete (f : Fault) : Bool :=
  f.kind = .missingTerminator || f.kind = .unterminatedComment || f.kind = .unterminatedString

def renderTrace : Option (List Call) → String
  | none | some [] => ""
  | some calls =>
    "\n\nCall stack\n" ++ String.join (calls.map fun call => "  " ++ call.render ++ "\n")

def render (f : Fault) : String :=
  match f.location with
  | some loc => loc.render ++ ": " ++ f.message ++ renderTrace f.trace
  | none => f.message ++ renderTrace f.trace

def describe (f : Fault) : String := f.kind.name ++ ": " ++ f.render

end Fault

end TokenForth
