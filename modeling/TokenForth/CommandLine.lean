import TokenForth.Host
import TokenForth.Session

/-!
# The command line

Arguments are taken from the left: options with a value, at most one script, and two options that
ask for information and end the reading there and then.
-/
namespace TokenForth.CommandLine

/-- The options that take a value. -/
inductive Setting where
  | base
  | maxDepth
  | logLevel
  deriving DecidableEq, Repr

inductive Misuse where
  | unknownOption (text : String)
  | unneededValue (option : String)
  | missingValue (setting : Setting)
  | repeated (setting : Setting)
  | badValue (setting : Setting) (text : String)
  | secondScript (text : String)
  | emptyScript
  deriving DecidableEq, Repr

structure Options where
  script : Option String := none
  base : Option Nat := none
  maxDepth : Option Nat := none
  logLevel : Option String := none
  deriving DecidableEq, Repr

inductive Request where
  | session (options : Options)
  | version
  | help
  deriving DecidableEq, Repr

def Setting.name : Setting → String
  | base => "--base"
  | maxDepth => "--max-depth"
  | logLevel => "--log-level"

def Misuse.message : Misuse → String
  | unknownOption text => "unexpected argument '" ++ text ++ "' found"
  | unneededValue option => "unexpected value for '" ++ option ++ "' found"
  | missingValue setting => "a value is required for '" ++ setting.name ++ "' but none was supplied"
  | repeated setting => "the argument '" ++ setting.name ++ "' cannot be used multiple times"
  | badValue setting text => "invalid value '" ++ text ++ "' for '" ++ setting.name ++ "'"
  | secondScript text => "unexpected argument '" ++ text ++ "' found"
  | emptyScript => "a value is required for '[SCRIPT]' but none was supplied"

/-- Reads decimal digits with an optional plus sign, up to a limit. -/
def readCount? (limit : Nat) (text : String) : Option Nat :=
  let digits :=
    match text.toList with
    | '+' :: rest => rest
    | chars => chars
  (Numeral.readMagnitude 10 digits).filter (· ≤ limit)

/-- Reads the name of a radix, or a number from 2 to 36. -/
def readRadix? (text : String) : Option Nat :=
  match Catalog.radixNamed? text with
  | some radix => some radix
  | none => (readCount? 4294967295 text).filter Numeral.isRadix

namespace Options

def set (o : Options) (setting : Setting) (text : String) : Except Misuse Options :=
  match setting with
  | .base =>
    if o.base.isSome then .error (.repeated .base)
    else match readRadix? text with
      | some radix => .ok { o with base := some radix }
      | none => .error (.badValue .base text)
  | .maxDepth =>
    if o.maxDepth.isSome then .error (.repeated .maxDepth)
    else match readCount? 18446744073709551615 text with
      | some depth => .ok { o with maxDepth := some depth }
      | none => .error (.badValue .maxDepth text)
  | .logLevel =>
    if o.logLevel.isSome then .error (.repeated .logLevel)
    else .ok { o with logLevel := some text }

def setScript (o : Options) (path : String) : Except Misuse Options :=
  if o.script.isSome then .error (.secondScript path)
  else if path.isEmpty then .error .emptyScript
  else .ok { o with script := some path }

def config (o : Options) : Config :=
  { radix := o.base.getD 10, callLimit := o.maxDepth.getD 1000 }

/-- The stack to set aside, in bytes: 16 KiB for each level of calls and for 64 levels more, up to
the greatest 64-bit word. -/
def stackSize (o : Options) : Nat := min ((o.config.callLimit + 64) * 16384) 18446744073709551615

end Options

inductive Argument where
  | script (path : String)
  /-- Two hyphens, after which there are no options. -/
  | endOfOptions
  /-- A setting whose value is the next argument. -/
  | setting (setting : Setting)
  /-- A setting with its value. -/
  | assignment (setting : Setting) (value : String)
  | version
  | help
  | misuse (misuse : Misuse)
  deriving DecidableEq, Repr

namespace Argument

/-- An option that takes no value, with what stands after an equals sign. -/
def flag (name : String) (value : Option String) (meaning : Argument) : Argument :=
  if value.isSome then misuse (.unneededValue name) else meaning

def ofLong (name : String) (value : Option String) : Argument :=
  let valued (s : Setting) : Argument :=
    match value with
    | some text => assignment s text
    | none => setting s
  match name with
  | "base" => valued .base
  | "max-depth" => valued .maxDepth
  | "log-level" => valued .logLevel
  | "version" => flag "--version" value version
  | "help" => flag "--help" value help
  | other => misuse (.unknownOption ("--" ++ other))

def ofShort (letter : Char) (rest : List Char) : Argument :=
  match letter with
  | 'b' =>
    match rest with
    | [] => setting .base
    | '=' :: value => assignment .base (String.ofList value)
    | value => assignment .base (String.ofList value)
  | 'V' => version
  | 'h' => help
  | other => misuse (.unknownOption (String.ofList ['-', other]))

/-- A lone hyphen is a path. -/
def ofText (text : String) : Argument :=
  match text.toList with
  | ['-', '-'] => endOfOptions
  | '-' :: '-' :: long =>
    let name := long.takeWhile (· ≠ '=')
    let value := (long.dropWhile (· ≠ '=')).tail?
    ofLong (String.ofList name) (value.map String.ofList)
  | '-' :: letter :: rest => ofShort letter rest
  | _ => script text

end Argument

def readPaths (o : Options) : List String → Except Misuse Options
  | [] => .ok o
  | path :: rest => do
    let o ← o.setScript path
    readPaths o rest

/-- Takes arguments from the left. -/
def readFrom (o : Options) : List String → Except Misuse Request
  | [] => .ok (.session o)
  | arg :: rest =>
    match Argument.ofText arg with
    | .version => .ok .version
    | .help => .ok .help
    | .misuse misuse => .error misuse
    | .endOfOptions => (readPaths o rest).map .session
    | .script path => do
      let o ← o.setScript path
      readFrom o rest
    | .assignment setting value => do
      let o ← o.set setting value
      readFrom o rest
    | .setting setting =>
      match rest with
      | [] => .error (.missingValue setting)
      | value :: rest =>
        match Argument.ofText value with
        | .script value => do
          let o ← o.set setting value
          readFrom o rest
        | _ => .error (.missingValue setting)

def read (args : List String) : Except Misuse Request := readFrom {} args

def versionText : String := "treeforth 0.1.0\n"

def helpText : String :=
  String.join [
    "A small Forth interpreter that runs straight from the token stream\n\n",
    "Usage: treeforth [OPTIONS] [SCRIPT]\n\n",
    "Arguments:\n",
    "  [SCRIPT]  Script to run.  Without one an interactive session is started\n\n",
    "Options:\n",
    "  -b, --base <BASE>            Starting radix, either a name like HEX or a number from 2 to 36 ",
    "[default: DECIMAL]\n",
    "      --max-depth <MAX_DEPTH>  Maximum nesting depth of user defined word calls ",
    "[default: 1000]\n",
    "      --log-level <LOG_LEVEL>  Log filter, for example warn or treeforth=debug\n",
    "  -h, --help                   Print help\n",
    "  -V, --version                Print version\n"]

/-- What a run of the program leaves behind. -/
structure Report where
  code : Nat
  stdout : String := ""
  stderr : String := ""
  deriving DecidableEq, Repr

namespace Report

/-- The report of a run that printed some text and ended with or without a fault. A request to exit
is a success. -/
def ofRun (stdout : String) : Option Fault → Report
  | none => { code := 0, stdout := stdout }
  | some f =>
    if f.isExit then { code := 0, stdout := stdout }
    else { code := 1, stdout := stdout, stderr := "Error: " ++ f.render ++ "\n" }

def ofRefusal (refusal : Refusal) : Report := ofRun "" (some ⟨.system refusal.message, none, none⟩)

def ofMisuse (misuse : Misuse) : Report :=
  { code := 2, stderr := "error: " ++ misuse.message ++ "\n" }

end Report

def runScript (steps : Nat) (config : Config) (path : String) (content : Except Refusal ByteArray) :
    Option Report :=
  match content with
  | .error refusal => some (Report.ofRefusal refusal)
  | .ok bytes =>
    match String.fromUTF8? bytes with
    | none => some (Report.ofRun "" (some Session.badEncoding))
    | some text =>
      match Script.run steps path text (Machine.new config) with
      | .done (stdout, fault) _ => some (Report.ofRun stdout fault)
      | .failed f _ => some (Report.ofRun "" (some f))
      | .unfinished => none

/-- Runs the program on its arguments, its host and its standard input. The stack is set aside
before anything is read. Nothing is given if the steps did not suffice. -/
def run (steps : Nat) (args : List String) (host : Host) (stdin : List UInt8) : Option Report :=
  match read args with
  | .error misuse => some (Report.ofMisuse misuse)
  | .ok .version => some { code := 0, stdout := versionText }
  | .ok .help => some { code := 0, stdout := helpText }
  | .ok (.session o) =>
    match host.reserve o.stackSize with
    | .error refusal => some (Report.ofRefusal refusal)
    | .ok () =>
      match o.script with
      | some path => runScript steps o.config path (host.file path)
      | none =>
        ((Session.start o.config).readLines steps (Session.lines stdin)).map fun (stdout, fault) =>
          Report.ofRun stdout fault

end TokenForth.CommandLine
