import TokenForth.Catalog
import TokenForth.Proofs.Program

/-!
# Evaluating structured programs

A big-step evaluation of program trees. Blocks are evaluated as they stand in the tree, so no token
is searched for, and the indices of loops are looked up, so no token is rewritten. Streams and loop
frames have no part in it. Loops and calls of defined words are bounded by a number of steps.
-/
namespace TokenForth

open Machine

/-- Whether a primitive uses the leaf that comes next. -/
def Primitive.takes (p : Primitive) (next : Option Token) : Bool :=
  match p, next with
  | .storage .declare, some _ | .storage .constant, some _ | .listing .see, some _ => true
  | .control .abort, some ⟨.quote _, _⟩ => true
  | _, _ => false

def messageOf (next : Option Token) : String :=
  match next with
  | some ⟨.quote text, _⟩ => Text.trim text
  | _ => ""

def Primitive.evaluate (p : Primitive) (next : Option Token) : Exec Unit :=
  match p, next with
  | .storage .declare, some ⟨.word name, _⟩ => do
    let _ ← allocate name
  | .storage .constant, some ⟨.word name, location⟩ => do
    let value ← pop
    addWord {
      name := name
      action := .primitive (.literal value)
      location := some location
      description := "Constant value."
      signature := " -- value" }
  | .listing .see, some ⟨.word name, _⟩ => do
    let word ← findWord name
    write (word.render ++ "\n")
  | .control .abort, next => do
    let message := messageOf next
    if ← popFlag then Exec.raise (.aborted (if message.isEmpty then "Aborted." else message))
  | p, _ => p.run (fun _ => Exec.unfinished) 0

/-- Evaluates what a name means and goes `onward` with the rest of the sequence, where the next leaf
may have been used up. A name without a meaning is printed with a question mark, and the sequence
ends. -/
def Machine.Meaning.evaluate (call : Runner) (name : String) (next : Option Token)
    (onward : Bool → Exec Unit) : Meaning → Exec Unit
  | .address value | .number value => do
    push value
    onward false
  | .word w =>
    match w.action with
    | .primitive p => do
      p.evaluate next
      onward (p.takes next)
    | .body tokens => do
      runBody call w.name tokens
      onward false
  | .unknown => write (name ++ "?")

def Token.evaluate (call : Runner) (env : List Cell) (t : Token) (next : Option Token)
    (onward : Bool → Exec Unit) : Exec Unit :=
  match t.lexeme with
  | .quote text => do
    write text
    onward false
  | .comment _ => onward false
  | .number value => do
    push value
    onward false
  | .word name =>
    match loopIndex? env name with
    | some index => do
      push index
      onward false
    | none => do
      let m ← Exec.state
      (m.meaning name).evaluate call name next onward
  | other => Exec.raise (.strayLexeme other)

namespace Program

def branch (yes no : Exec Unit) : Exec Unit := do
  if ← popFlag then yes else no

def untilTrue (body : Exec Unit) : Nat → Exec Unit
  | 0 => Exec.unfinished
  | steps + 1 => do
    body
    if ← popFlag then pure () else untilTrue body steps

def forever (body : Exec Unit) : Nat → Exec Unit
  | 0 => Exec.unfinished
  | steps + 1 => do
    body
    forever body steps

def whileTrue (test body : Exec Unit) : Nat → Exec Unit
  | 0 => Exec.unfinished
  | steps + 1 => do
    test
    if ← popFlag then do
      body
      whileTrue test body steps
    else pure ()

/-- Passes from an index on, until the index reaches the limit or leaves the range of a cell. -/
def counting (body : Cell → Exec Unit) (limit : Cell) (stepped : Bool) : Nat → Cell → Exec Unit
  | 0, _ => Exec.unfinished
  | steps + 1, index => do
    body index
    let step ← Flow.takeStep stepped
    match Cell.add? index step with
    | none => pure ()
    | some index =>
      if Flow.reached index limit step then pure () else counting body limit stepped steps index

def counted (body : Cell → Exec Unit) (stepped : Bool) (steps : Nat) : Exec Unit := do
  let start ← pop
  let limit ← pop
  Exec.catchLeave (counting body limit stepped steps start)

/-- Evaluates a program inside of loops with given indices, innermost first. `taken` says that the
first leaf has been used by the word before it. -/
def evaluate (call : Runner) (steps : Nat) : Program → List Cell → Bool → Exec Unit
  | done, _, _ => pure ()
  | leaf t rest, env, taken =>
    if taken then rest.evaluate call steps env false
    else t.evaluate call env rest.head? (rest.evaluate call steps env)
  | when _ body _ rest, env, _ => do
    branch (body.evaluate call steps env false) (pure ())
    rest.evaluate call steps env false
  | choose _ yes _ no _ rest, env, _ => do
    branch (yes.evaluate call steps env false) (no.evaluate call steps env false)
    rest.evaluate call steps env false
  | count _ body stepped _ rest, env, _ => do
    counted (fun index => body.evaluate call steps (index :: env) false) stepped steps
    rest.evaluate call steps env false
  | loopUntil _ body _ rest, env, _ => do
    Exec.catchLeave (untilTrue (body.evaluate call steps env false) steps)
    rest.evaluate call steps env false
  | loopAgain _ body _ rest, env, _ => do
    Exec.catchLeave (forever (body.evaluate call steps env false) steps)
    rest.evaluate call steps env false
  | loopWhile _ test _ body _ rest, env, _ => do
    Exec.catchLeave (whileTrue (test.evaluate call steps env false)
      (body.evaluate call steps env false) steps)
    rest.evaluate call steps env false

def evaluateBody (trees : List Token → Program) : Nat → List Token → Exec Unit
  | 0, _ => Exec.unfinished
  | steps + 1, tokens => (trees tokens).evaluate (evaluateBody trees steps) steps [] false

/-- Evaluates a program outside of all loops. A fault other than `LEAVE` empties the data stack. -/
def run (trees : List Token → Program) (steps : Nat) (p : Program) : Exec Unit :=
  Exec.onFault (p.evaluate (evaluateBody trees steps) steps [] false) (fun f => !f.isLeave) cleared

end Program

end TokenForth
