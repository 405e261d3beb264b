import TokenForth.Machine
import TokenForth.Text.Blank

/-!
# Words for the whole machine

Switching the radix, emptying the stacks and ending a run. `ABORT` takes a quotation that follows
it as its message, whether it ends the run or not.
-/
namespace TokenForth

open Machine

/-- Takes the quotation that comes next in the running stream, without the blanks at its ends. -/
def Machine.nextMessage : Exec String := do
  let s ← stream
  match s.rest with
  | ⟨.quote text, _⟩ :: rest => do
    setStream ⟨rest⟩
    return Text.trim text
  | _ => return ""

def Control.run : Control → Exec Unit
  | radix r => setRadix r
  | clear => do
    Machine.clear
    clearReturn
  | abort => do
    let flag ← popFlag
    let message ← nextMessage
    if flag then Exec.raise (.aborted (if message.isEmpty then "Aborted." else message))
  | quit => Exec.raise .exit

/-- The place of execution: the tokens to come, the loops and calls that are open, the depth of the
data stack and the location. -/
def Machine.report (m : Machine) (s : TokenStream) : String :=
  let shown (n : Nat) : String := ((s.peek n).map Token.render).getD "~"
  "[left " ++ toString s.remaining ++ " next " ++ shown 0 ++ "," ++ shown 1 ++ " loops [" ++
    ", ".intercalate (m.indices.reverse.map Numeral.decimal) ++ "] calls " ++
    " / ".intercalate (m.calls.reverse.map Call.render) ++ " depth " ++ toString m.data.depth ++
    " at " ++ (m.location.map Location.render).getD "" ++ "]"

end TokenForth
