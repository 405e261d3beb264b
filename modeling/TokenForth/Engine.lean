import TokenForth.Block
import TokenForth.Setting
import TokenForth.Statement
import TokenForth.Words.Control
import TokenForth.Words.Name
import TokenForth.Words.Number
import TokenForth.Words.Print

/-!
# Execution

Token lists are run as they stand. A control word takes its block out of the stream that called it
and runs the segments as token lists of their own. Running is bounded by a number of steps; the
parts below are given the way to run a nested token list or to execute a word, and `runTokensVia`
ties them together.
-/
namespace TokenForth

open Machine Setting

/-- The way to run a nested token list. -/
abbrev Runner (M : Type → Type := Exec) := List Token → M Unit

variable {M : Type → Type} [Setting M]

namespace Flow

/-- Takes the block that follows its opening word out of the running stream. A block that is never
closed uses the stream up. -/
def takeBlock (v : Vocabulary) : Exec Block := do
  let s ← stream
  match v.scan s.rest with
  | some (block, rest) => do
    setStream ⟨rest⟩
    return block
  | none => do
    setStream ⟨[]⟩
    Exec.raise v.unclosed

def runConditional (runner : Runner M) : M Unit := do
  let block ← act (takeBlock .conditional)
  match block.parts with
  | _ :: _ :: _ => act (Exec.raise .secondElse)
  | [] =>
    if ← act popFlag then runner block.first
  | [(_, other)] =>
    if ← act popFlag then runner block.first else runner other

/-- Whether an index that moved by `step` has reached the limit. -/
def reached (index limit step : Cell) : Bool := if 0 ≤ step then limit ≤ index else index ≤ limit

/-- The step of a pass, which a pass that ends with `+LOOP` leaves on the stack. -/
def takeStep (stepped : Bool) : M Cell := if stepped then act pop else pure 1

/-- What comes after a pass of a `DO` loop. The loop ends when the index reaches the limit or leaves
the range of a cell. -/
def nextPass (again : Cell → M Unit) (limit index step : Cell) : M Unit :=
  match Cell.add? index step with
  | none => pure ()
  | some index => if reached index limit step then pure () else again index

/-- Passes through the body of a `DO` loop, from the pass with the given index on. -/
def runPasses (runner : Runner M) (body : List Token) (limit : Cell) (stepped : Bool) :
    Nat → Cell → M Unit
  | 0, _ => act Exec.unfinished
  | steps + 1, index => do
    act (updateLoop index)
    let m ← act Exec.state
    runner (substitute m.indices body)
    let step ← takeStep stepped
    nextPass (runPasses runner body limit stepped steps) limit index step

def runCounted (runner : Runner M) (steps : Nat) : M Unit := do
  let start ← act pop
  let limit ← act pop
  let block ← act (takeBlock .counted)
  act (enterLoop start)
  let passes := runPasses runner block.first limit (block.closerName = "+LOOP") steps start
  catchLeave (after passes loopExited)

/-- `BEGIN ... UNTIL`, with the test at the end of the body. -/
def runUntil (runner : Runner M) (body : List Token) : Nat → M Unit
  | 0 => act Exec.unfinished
  | steps + 1 => do
    runner body
    if ← act popFlag then pure () else runUntil runner body steps

/-- `BEGIN ... AGAIN`, which only a fault or `LEAVE` ends. -/
def runAgain (runner : Runner M) (body : List Token) : Nat → M Unit
  | 0 => act Exec.unfinished
  | steps + 1 => do
    runner body
    runAgain runner body steps

/-- `BEGIN ... WHILE ... REPEAT`, with the test before the body. -/
def runWhile (runner : Runner M) (test body : List Token) : Nat → M Unit
  | 0 => act Exec.unfinished
  | steps + 1 => do
    runner test
    if ← act popFlag then
      runner body
      runWhile runner test body steps
    else pure ()

/-- The loops of `BEGIN`, told apart by the closing word. -/
def runRepeated (runner : Runner M) (steps : Nat) : M Unit := do
  let block ← act (takeBlock .repeated)
  match block.parts with
  | _ :: _ :: _ => act (Exec.raise .secondWhile)
  | [] =>
    match block.closerName with
    | "UNTIL" => catchLeave (runUntil runner block.first steps)
    | "AGAIN" => catchLeave (runAgain runner block.first steps)
    | _ => act (Exec.raise .repeatWithoutWhile)
  | [(_, body)] =>
    match block.closerName with
    | "REPEAT" => catchLeave (runWhile runner block.first body steps)
    | closer => act (Exec.raise (.whileBefore closer))

def run (runner : Runner M) (steps : Nat) : Flow → M Unit
  | conditional => runConditional runner
  | counted => runCounted runner steps
  | repeated => runRepeated runner steps
  | leave => act (Exec.raise .leave)

end Flow

def Primitive.run (runner : Runner M) (steps : Nat) : Primitive → M Unit
  | shuffle word => act word.run
  | transfer word => act word.run
  | arithmetic word => act word.run
  | logic word => act word.run
  | storage word => act word.run
  | listing word => act word.run
  | printing word => act word.run
  | control word => act word.run
  | flow word => word.run runner steps
  | literal value => act (push value)
  | inert => act (pure ())
  | report => act do
    let s ← stream
    let m ← Exec.state
    write (m.report s)

namespace Machine

def wordEntered (m : Machine) : Machine :=
  { m with depth := m.depth + 1, frames := [] :: m.frames }

def wordExited (m : Machine) : Machine :=
  { m with depth := m.depth - 1, frames := m.frames.tail }

/-- Runs the body of a word in a loop frame of its own. -/
def enclosed (runner : Runner M) (body : List Token) : M Unit := do
  act (Exec.update wordEntered)
  after (runner body) wordExited

/-- Fails if the return stack is not as deep as before the word. -/
def checkReturns (name : String) (before : Nat) : Exec Unit := do
  let m ← Exec.state
  if m.returns.depth = before then pure ()
  else do
    clearReturn
    Exec.raise (.unbalanced name before m.returns.depth)

/-- Executes a defined word, which has to leave the return stack as deep as it was. -/
def runBody (runner : Runner M) (name : String) (body : List Token) : M Unit := do
  let m ← act Exec.state
  if m.config.callLimit ≤ m.depth then
    act (Exec.raise (.tooDeep m.config.callLimit name))
  else do
    enclosed runner body
    act (checkReturns name m.returns.depth)

def callEntered (call : Call) (m : Machine) : Machine :=
  { m with location := some call.location, calls := call :: m.calls }

def callExited (m : Machine) : Machine := { m with calls := m.calls.tail }

/-- What a word does once it is called. -/
def runAction (runner : Runner M) (steps : Nat) (w : Word) : M Unit :=
  match w.action with
  | .primitive p => p.run runner steps
  | .body tokens => runBody runner w.name tokens

def runWord (runner : Runner M) (steps : Nat) (location : Location) (w : Word) : M Unit := do
  act (Exec.update (callEntered ⟨w.name, location⟩))
  after (runAction runner steps w) callExited

/-- A word that is about to be executed within some steps. -/
structure Invocation where
  steps : Nat
  location : Location
  word : Word
  deriving DecidableEq

def Invocation.run (runner : Runner M) (i : Invocation) : M Unit :=
  runWord runner i.steps i.location i.word

/-- What a name means to a machine: a variable first, then a word, then a number. -/
inductive Meaning where
  | address (value : Cell)
  | word (word : Word)
  | number (value : Cell)
  | unknown

def meaning (m : Machine) (name : String) : Meaning :=
  match m.memory.address? name with
  | some address => .address address
  | none =>
    match m.dictionary.get? name with
    | some w => .word w
    | none =>
      match Numeral.read? m.radix name with
      | some value => .number value
      | none => .unknown

/-- Carries out what a name means, and then the rest of the stream. The rest is not run after a name
without a meaning, which is printed with a question mark. -/
def runMeaning (invoke : Invocation → M Unit) (steps : Nat) (location : Location) (name : String)
    (rest : M Unit) : Meaning → M Unit
  | .address value | .number value => do
    act (push value)
    rest
  | .word w => do
    invoke ⟨steps, location, w⟩
    rest
  | .unknown => act (write (name ++ "?"))

/-- Runs a token that was taken from the stream, and then the rest of the stream. -/
def runToken (invoke : Invocation → M Unit) (steps : Nat) (rest : M Unit) (t : Token) : M Unit :=
  match t.lexeme with
  | .quote text => do
    act (write text)
    rest
  | .comment _ => rest
  | .number value => do
    act (push value)
    rest
  | .word name => do
    let m ← act Exec.state
    runMeaning invoke steps t.location name rest (m.meaning name)
  | other => act (Exec.raise (.strayLexeme other))

def located (location : Location) (m : Machine) : Machine := { m with location := some location }

/-- Runs the tokens of the innermost stream. -/
def runStreamVia (invoke : Invocation → M Unit) : Nat → M Unit
  | 0 => act Exec.unfinished
  | steps + 1 => do
    match ← act nextToken? with
    | none => pure ()
    | some t => do
      act (Exec.update (located t.location))
      runToken invoke steps (runStreamVia invoke steps) t

abbrev runStream (runner : Runner M) : Nat → M Unit := runStreamVia (Invocation.run runner)

def streamEntered (tokens : List Token) (m : Machine) : Machine :=
  { m with streams := ⟨tokens⟩ :: m.streams }

def streamExited (m : Machine) : Machine := { m with streams := m.streams.tail }

/-- Runs a token list in a stream of its own. A fault other than `LEAVE` empties the data stack. -/
def runListVia (invoke : Invocation → M Unit) (steps : Nat) (tokens : List Token) : M Unit := do
  act (Exec.update (streamEntered tokens))
  onFault (after (runStreamVia invoke steps) streamExited) (fun f => !f.isLeave) cleared

/-- Runs a token list within a number of steps. The hook is called for every word that is executed,
with the way to run the token lists of the word. -/
def runTokensVia (hook : Runner M → Invocation → M Unit) : Nat → Runner M
  | 0, _ => act Exec.unfinished
  | steps + 1, tokens => runListVia (hook (runTokensVia hook steps)) steps tokens

def runTokens : Nat → Runner := runTokensVia Invocation.run

def execute (steps : Nat) (location : Location) (w : Word) : Exec Unit :=
  runWord (runTokens steps) steps location w

def perform (steps : Nat) (p : Primitive) : Exec Unit := p.run (runTokens steps) steps

/-- Adds the word of a definition, whose first token is its name. -/
def define : List Token → Exec Unit
  | [] => Exec.raise .unnamedDefinition
  | t :: body =>
    match t.lexeme with
    | .word name =>
      addWord {
        name := name
        action := .body body
        location := some t.location
        description := "User defined word." }
    | other => do
      Exec.update (located t.location)
      Exec.raise (.notAName other)

/-- Carries out a statement. A `LEAVE` that no loop caught empties the data stack as well. -/
def carryOutVia (runner : Runner M) : Statement → M Unit
  | .declaration tokens => act (define tokens)
  | .expression tokens => onFault (runner tokens) Fault.isLeave cleared

/-- Carries out a statement and gives out what it printed. The output of a statement that fails
stays in the machine. -/
def runStatementVia (runner : Runner M) (s : Statement) : M String := do
  let _ ← act takeOutput
  carryOutVia runner s
  act takeOutput

/-- Carries out a statement of a source, or meets the fault that stands in its place. -/
def runResultVia (runner : Runner M) : Except Fault Statement → M String
  | .ok s => runStatementVia runner s
  | .error f => act do
    clear
    Exec.fail f

/-- Carries out the statements of a source up to the first fault and gives out what each of them
printed. -/
def runResultsVia (runner : Runner M) : List (Except Fault Statement) → M (List String)
  | [] => pure []
  | result :: rest => do
    let output ← runResultVia runner result
    let outputs ← runResultsVia runner rest
    return output :: outputs

abbrev carryOut (steps : Nat) : Statement → Exec Unit := carryOutVia (runTokens steps)

abbrev runStatement (steps : Nat) : Statement → Exec String := runStatementVia (runTokens steps)

abbrev runResult (steps : Nat) : Except Fault Statement → Exec String :=
  runResultVia (runTokens steps)

abbrev runResults (steps : Nat) : List (Except Fault Statement) → Exec (List String) :=
  runResultsVia (runTokens steps)

def process (steps : Nat) (path text : String) : Exec (List String) :=
  runResults steps (Statement.results path text)

/-- Runs a text that comes from no file. -/
def interpret (steps : Nat) (text : String) : Exec (List String) := process steps "<input>" text

end Machine

end TokenForth
