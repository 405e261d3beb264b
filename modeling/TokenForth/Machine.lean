import TokenForth.Dictionary
import TokenForth.Fault
import TokenForth.Stack
import TokenForth.Token.Stream
import TokenForth.Variables

/-!
# The machine

The state of a running program, and the actions that change it. An action ends in one of three
ways: it is done, it failed with a fault, or it ran out of the steps it was given. The machine that
a failed action leaves behind goes on being used.
-/
namespace TokenForth

structure Config where
  /-- The radix to start in; decimal is used instead of an unusable one. -/
  radix : Nat := 10
  /-- How deeply defined words may call each other. -/
  callLimit : Nat := 1000
  /-- The address of the first variable. -/
  variableBase : Cell := Variables.defaultBase
  deriving DecidableEq, Repr

structure Machine where
  config : Config
  data : Stack := .empty
  returns : Stack := .empty
  radix : Nat
  dictionary : Dictionary
  memory : Variables
  /-- The place execution has reached. -/
  location : Option Location := none
  /-- The words being executed, innermost first. -/
  calls : List Call := []
  /-- The token lists being run, innermost first. -/
  streams : List TokenStream := []
  /-- The indices of the open `DO` loops, innermost first, for each defined word being executed,
  innermost first, and for the code outside of all words. -/
  frames : List (List Cell) := [[]]
  /-- How many defined words are being executed. -/
  depth : Nat := 0
  /-- What the running statement has printed. -/
  output : String := ""
  deriving DecidableEq, Repr

namespace Machine

def blank (config : Config) : Machine where
  config := config
  radix := Numeral.writingRadix config.radix
  dictionary := .empty
  memory := .empty config.variableBase

/-- The indices of the loops of the innermost word, innermost first. -/
def indices (m : Machine) : List Cell := m.frames.headD []

/-- A fault met where the machine stands. -/
def fault (m : Machine) (cause : Fault.Cause) : Fault := ⟨cause, m.location, some m.calls⟩

end Machine

inductive Outcome (α : Type) where
  | done (value : α) (machine : Machine)
  | failed (fault : Fault) (machine : Machine)
  /-- The action was given too few steps. -/
  | unfinished
  deriving DecidableEq, Repr

/-- The machine that is left behind, or another one if the action did not end. -/
def Outcome.machineD {α : Type} (o : Outcome α) (default : Machine) : Machine :=
  match o with
  | .done _ m | .failed _ m => m
  | .unfinished => default

def Exec (α : Type) : Type := Machine → Outcome α

namespace Exec

@[always_inline, inline]
def run {α : Type} (act : Exec α) (m : Machine) : Outcome α := act m

@[always_inline]
instance : Monad Exec where
  pure a := fun m => .done a m
  bind act next := fun m =>
    match act m with
    | .done a m => next a m
    | .failed f m => .failed f m
    | .unfinished => .unfinished

@[always_inline, inline]
def state : Exec Machine := fun m => .done m m

@[always_inline, inline]
def update (change : Machine → Machine) : Exec Unit := fun m => .done () (change m)

def unfinished {α : Type} : Exec α := fun _ => .unfinished

def fail {α : Type} (f : Fault) : Exec α := fun m => .failed f m

def raise {α : Type} (cause : Fault.Cause) : Exec α := fun m => .failed (m.fault cause) m

/-- Gives out a failure as a value. -/
@[always_inline, inline]
def attempt {α : Type} (act : Exec α) : Exec (Except Fault α) := fun m =>
  match act m with
  | .done a m => .done (.ok a) m
  | .failed f m => .done (.error f) m
  | .unfinished => .unfinished

/-- Changes the machine after an action, however the action ends. -/
@[always_inline, inline]
def after {α : Type} (act : Exec α) (change : Machine → Machine) : Exec α := fun m =>
  match act m with
  | .done a m => .done a (change m)
  | .failed f m => .failed f (change m)
  | .unfinished => .unfinished

/-- Changes the machine after an action that fails with certain faults. -/
@[always_inline, inline]
def onFault {α : Type} (act : Exec α) (test : Fault → Bool) (change : Machine → Machine) : Exec α :=
  fun m =>
    match act m with
    | .failed f m => .failed f (if test f then change m else m)
    | other => other

/-- Ends an action where it was left. -/
@[always_inline, inline]
def catchLeave (act : Exec Unit) : Exec Unit := fun m =>
  match act m with
  | .failed f m => if f.isLeave then .done () m else .failed f m
  | other => other

end Exec

namespace Machine

def pushed (c : Cell) (m : Machine) : Machine := { m with data := m.data.push c }

def cleared (m : Machine) : Machine := { m with data := m.data.clear }

def push (c : Cell) : Exec Unit := .update (pushed c)

def pushFlag (b : Bool) : Exec Unit := push (Cell.flag b)

def pop : Exec Cell := fun m =>
  match m.data.pop? with
  | some (c, data) => .done c { m with data := data }
  | none => .failed (m.fault .underflow) m

def popFlag : Exec Bool := do return Cell.isTrue (← pop)

def popMany (n : Nat) : Exec (List Cell) := fun m =>
  match m.data.popMany? n with
  | some (cells, data) => .done cells { m with data := data }
  | none => .failed (m.fault (.underflowOf n m.data.depth)) m

def top : Exec Cell := fun m =>
  match m.data.top? with
  | some c => .done c m
  | none => .failed (m.fault .underflow) m

def clear : Exec Unit := .update cleared

def pushReturn (c : Cell) : Exec Unit := .update fun m => { m with returns := m.returns.push c }

def popReturn : Exec Cell := fun m =>
  match m.returns.pop? with
  | some (c, returns) => .done c { m with returns := returns }
  | none => .failed (m.fault .returnUnderflow) m

def topReturn : Exec Cell := fun m =>
  match m.returns.top? with
  | some c => .done c m
  | none => .failed (m.fault .returnUnderflow) m

def clearReturn : Exec Unit := .update fun m => { m with returns := m.returns.clear }

def setRadix (radix : Nat) : Exec Unit := fun m =>
  if Numeral.isRadix radix then .done () { m with radix := radix }
  else .failed (m.fault (.radixOutOfRange radix)) m

def write (text : String) : Exec Unit := .update fun m => { m with output := m.output ++ text }

def takeOutput : Exec String := fun m => .done m.output { m with output := "" }

/-- Takes the next token of the running stream, if there is one. -/
def nextToken? : Exec (Option Token) := fun m =>
  match m.streams with
  | ⟨t :: rest⟩ :: outer => .done (some t) { m with streams := ⟨rest⟩ :: outer }
  | _ => .done none m

def nextToken : Exec Token := do
  match ← nextToken? with
  | some t => return t
  | none => Exec.raise .endOfTokens

def nextName : Exec (String × Location) := do
  let t ← nextToken
  match t.lexeme with
  | .word name => return (name, t.location)
  | other => Exec.raise (.notAName other)

def stream : Exec TokenStream := fun m =>
  match m.streams with
  | s :: _ => .done s m
  | [] => .failed (m.fault .noStream) m

/-- Leaves only `rest` in the running stream. -/
def setStream (rest : TokenStream) : Exec Unit :=
  .update fun m => { m with streams := rest :: m.streams.tail }

def loopEntered (index : Cell) (m : Machine) : Machine :=
  match m.frames with
  | frame :: outer => { m with frames := (index :: frame) :: outer }
  | [] => { m with frames := [[index]] }

def loopUpdated (index : Cell) (m : Machine) : Machine :=
  match m.frames with
  | (_ :: frame) :: outer => { m with frames := (index :: frame) :: outer }
  | _ => m

def loopExited (m : Machine) : Machine :=
  match m.frames with
  | frame :: outer => { m with frames := frame.tail :: outer }
  | [] => m

def enterLoop (index : Cell) : Exec Unit := .update (loopEntered index)

def updateLoop (index : Cell) : Exec Unit := .update (loopUpdated index)

def exitLoop : Exec Unit := .update loopExited

def addWord (w : Word) : Exec Unit := .update fun m => { m with dictionary := m.dictionary.add w }

def findWord (name : String) : Exec Word := fun m =>
  match m.dictionary.get? name with
  | some w => .done w m
  | none => .failed (m.fault (.unknownWord name)) m

def forgetWord (name : String) : Exec Unit := fun m =>
  match m.dictionary.forget? name with
  | some (_, older) => .done () { m with dictionary := older }
  | none => .failed (m.fault (.unknownWord name)) m

def allocate (name : String) : Exec Cell := fun m =>
  let (address, memory) := m.memory.allocate name
  .done address { m with memory := memory }

def store (address value : Cell) : Exec Unit :=
  .update fun m => { m with memory := m.memory.store address value }

def fetch (address : Cell) : Exec Cell := fun m =>
  match m.memory.fetch? address with
  | some value => .done value m
  | none => .failed (m.fault (.neverAllocated address)) m

end Machine

end TokenForth
