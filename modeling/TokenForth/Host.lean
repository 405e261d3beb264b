/-!
# The host

What the program finds around it: the files it can read, and room for its stack. A working
directory with nothing but some files in it is such a host.
-/
namespace TokenForth

inductive Refusal where
  | missing
  | noRoom
  | notPermitted
  | notDirectory
  | isDirectory
  | invalid
  | nameTooLong
  | other (text : String)
  deriving DecidableEq, Repr

/-- The system's words, with its number of the cause. -/
def Refusal.message : Refusal → String
  | missing => "No such file or directory (os error 2)"
  | noRoom => "Resource temporarily unavailable (os error 11)"
  | notPermitted => "Permission denied (os error 13)"
  | notDirectory => "Not a directory (os error 20)"
  | isDirectory => "Is a directory (os error 21)"
  | invalid => "Invalid argument (os error 22)"
  | nameTooLong => "File name too long (os error 36)"
  | other text => text

structure Host where
  file : String → Except Refusal ByteArray
  /-- The greatest stack that can be set aside, in bytes. -/
  room : Nat

/-- Sets aside a stack and the page that guards its end. Their length has to be a 64-bit word. -/
def Host.reserve (host : Host) (size : Nat) : Except Refusal Unit :=
  if 18446744073709551616 ≤ size + 4096 then .error .invalid
  else if host.room < size then .error .noRoom
  else .ok ()

inductive Place where
  | workingDirectory
  /-- A directory in which no name is found. -/
  | elsewhere
  | file (content : ByteArray)

/-- Takes one name of a path. A name has at most 255 bytes, and only a directory is walked
through. -/
def Place.enter (files : List (String × ByteArray)) : Place → String → Except Refusal Place
  | file _, _ => .error .notDirectory
  | place, "" => .ok place
  | place, "." => .ok place
  | _, ".." => .ok elsewhere
  | place, name =>
    if 255 < name.utf8ByteSize then .error .nameTooLong
    else match place, files.lookup name with
      | workingDirectory, some content => .ok (file content)
      | _, _ => .error .missing

/-- The bytes of the file at a path of at most 4095 bytes, from a working directory that holds the
files and nothing else. -/
def fileAt (files : List (String × ByteArray)) (path : String) : Except Refusal ByteArray :=
  if 4095 < path.utf8ByteSize then .error .nameTooLong
  else
    let start : Place := if path.startsWith "/" then .elsewhere else .workingDirectory
    match (path.splitOn "/").foldlM (Place.enter files) start with
    | .ok (.file content) => .ok content
    | .ok _ => .error .isDirectory
    | .error refusal => .error refusal

/-- The host of a working directory that holds the files and nothing else. -/
def Host.ofFiles (files : List (String × ByteArray)) (room : Nat) : Host :=
  { file := fileAt files, room := room }

end TokenForth
