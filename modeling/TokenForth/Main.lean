import TokenForth.CommandLine

/-!
# The program

Reads the arguments, the script or standard input, and prints what the library answers. On a
terminal a prompt asks for each line.
-/
namespace TokenForth

/-- More steps than a run can take in practice. -/
def ampleSteps : Nat := 4611686018427387904

/-- The system's number of a cause, also where it is given with its sign turned. -/
def causeNumber (code : UInt32) : UInt32 := if code < 0x80000000 then code else 0 - code

def refusalOf (failure : IO.Error) : Refusal :=
  match failure with
  | .noFileOrDirectory _ _ _ => .missing
  | .inappropriateType _ code _ => if causeNumber code = 20 then .notDirectory else .isDirectory
  | .permissionDenied _ _ _ => .notPermitted
  | .invalidArgument _ code _ =>
    if causeNumber code = 36 then .nameTooLong else .other (toString failure)
  | _ => .other (toString failure)

def readFile (path : String) : IO (Except Refusal ByteArray) := do
  try
    return .ok (← IO.FS.readBinFile path)
  catch failure =>
    return .error (refusalOf failure)

/-- A host that has the addresses of half a 48-bit space for the stack, and no files. -/
def addressSpace : Host := .ofFiles [] 140737488355328

def prompt (terminal : Bool) (s : Session) : IO Unit := do
  if terminal then
    IO.print (if s.pending.isEmpty then "> " else ".. ")
    (← IO.getStdout).flush

def finish (report : Option CommandLine.Report) : IO UInt32 := do
  match report with
  | none => return 1
  | some report =>
    IO.print report.stdout
    IO.eprint report.stderr
    return report.code.toUInt32

def conclude (s : Session) (input : ByteArray) : IO UInt32 :=
  finish <| (s.readLines ampleSteps (Session.lines input.toList)).map fun (text, fault) =>
    CommandLine.Report.ofRun text fault

/-- Reads and answers lines; `line` holds the bytes of a line that is not yet complete. -/
partial def converse (terminal : Bool) (s : Session) (line : ByteArray) : IO UInt32 := do
  let bytes ← (← IO.getStdin).read 4096
  if bytes.isEmpty then conclude s line
  else
    let mut session := s
    let mut line := line
    for b in bytes do
      line := line.push b
      if b = 10 then
        match Session.lines line.toList with
        | [some text] =>
          match session.readLine ampleSteps text with
          | none => return 1
          | some (next, answer) =>
            session := next
            line := .empty
            IO.print answer.text
            if !answer.goesOn then return 0
            prompt terminal session
        | _ => return ← conclude session line
    converse terminal session line

end TokenForth

open TokenForth in
def main (args : List String) : IO UInt32 := do
  match CommandLine.read args with
  | .ok (.session o) =>
    match addressSpace.reserve o.stackSize, o.script with
    | .error refusal, _ => finish (some (.ofRefusal refusal))
    | .ok (), some path => finish (CommandLine.runScript ampleSteps o.config path (← readFile path))
    | .ok (), none =>
      let session := Session.start o.config
      let terminal ← (← IO.getStdin).isTty
      prompt terminal session
      converse terminal session .empty
  | _ => finish (CommandLine.run 0 args addressSpace [])
