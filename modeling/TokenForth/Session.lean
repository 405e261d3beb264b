import TokenForth.Catalog
import TokenForth.Text.Blank

/-!
# Scripts and conversations

A script is a source that is run as a whole. A conversation is read line by line: lines are
gathered until they form a complete submission, which is then run and answered statement by
statement.
-/
namespace TokenForth

namespace Script

/-- Runs the statements of a script. Gives what they printed and the fault that ended the script. -/
def runResults (steps : Nat) : List (Except Fault Statement) → Exec (String × Option Fault)
  | [] => pure ("", none)
  | .error f :: _ => pure ("", some f)
  | .ok s :: rest => do
    match ← Exec.attempt (Machine.runStatement steps s) with
    | .error f => pure ("", some f)
    | .ok output => do
      let (text, fault) ← runResults steps rest
      return (output ++ text, fault)

def run (steps : Nat) (path text : String) : Exec (String × Option Fault) :=
  runResults steps (Statement.results path text)

end Script

/-- A conversation: the machine, and the lines of a submission that is not yet complete. -/
structure Session where
  machine : Machine
  pending : String := ""

namespace Session

def submissionPath : String := "<repl>"

def start (config : Config) : Session := { machine := Machine.new config }

structure Answer where
  text : String
  goesOn : Bool
  deriving DecidableEq, Repr

/-- Runs the statements of a submission. Each is acknowledged with what it printed; a fault empties
the data stack and ends the submission, and a request to exit ends the conversation. -/
def submitResults (steps : Nat) : List (Except Fault Statement) → Exec Answer
  | [] => pure ⟨"", true⟩
  | result :: rest => do
    let act :=
      match result with
      | .ok s => Machine.runStatement steps s
      | .error f => Exec.fail f
    match ← Exec.attempt act with
    | .ok output => do
      let answer ← submitResults steps rest
      return { answer with text := output ++ " ok\n" ++ answer.text }
    | .error f =>
      if f.isExit then return ⟨"", false⟩
      else do
        Machine.clear
        return ⟨f.render ++ " ?\n", true⟩

def submit (steps : Nat) (text : String) : Exec Answer :=
  submitResults steps (Statement.results submissionPath text)

def isIncomplete (text : String) : Bool :=
  match Statement.validate submissionPath text with
  | .error f => f.isIncomplete
  | .ok _ => false

def wordList (m : Machine) : String :=
  String.join (m.dictionary.toList.map fun w => w.render ++ "\n")

/-- Reads a line. The line `ops` at the start of a submission lists the words. Nothing is given if
the steps did not suffice. -/
def readLine (steps : Nat) (s : Session) (line : String) : Option (Session × Answer) :=
  if s.pending.isEmpty ∧ Text.trim line = "ops" then some (s, ⟨wordList s.machine, true⟩)
  else
    let text := s.pending ++ line ++ "\n"
    if isIncomplete text then some ({ s with pending := text }, ⟨"", true⟩)
    else
      match submit steps text s.machine with
      | .done answer m => some (⟨m, ""⟩, answer)
      | .failed f m => some (⟨m, ""⟩, ⟨f.render ++ " ?\n", true⟩)
      | .unfinished => none

def badEncoding : Fault := ⟨.system "stream did not contain valid UTF-8", none, none⟩

/-- Reads lines to the end of the input, where `none` is a line that is not valid text. Gives all
the answers and the fault that ended the conversation. -/
def readLines (steps : Nat) : Session → List (Option String) → Option (String × Option Fault)
  | _, [] => some ("", none)
  | _, none :: _ => some ("", some badEncoding)
  | s, some line :: rest =>
    match s.readLine steps line with
    | none => none
    | some (s, answer) =>
      if answer.goesOn then
        (readLines steps s rest).map fun (text, fault) => (answer.text ++ text, fault)
      else some (answer.text, none)

/-- The bytes of each line. A line ends with a line feed, a carriage return and a line feed, or the
input. -/
def splitLines : List UInt8 → List (List UInt8)
  | [] => []
  | 13 :: 10 :: rest => [] :: splitLines rest
  | 10 :: rest => [] :: splitLines rest
  | b :: rest =>
    match splitLines rest with
    | line :: lines => (b :: line) :: lines
    | [] => [[b]]

/-- The lines of some input, with `none` for a line that is not valid text. -/
def lines (input : List UInt8) : List (Option String) :=
  (splitLines input).map fun line => String.fromUTF8? (ByteArray.mk line.toArray)

end Session

end TokenForth
