/-!
# Source locations

A location is a path, or a tag such as `<input>` that stands for one, with a line and a column
that both count from one. Columns count characters.
-/
namespace TokenForth

structure Location where
  path : String := "unspecified"
  line : Nat := 1
  column : Nat := 1
  deriving DecidableEq, Repr, Inhabited

namespace Location

def start (path : String) : Location := ⟨path, 1, 1⟩

/-- Where the next character stands after reading `c` here. -/
def advance (loc : Location) (c : Char) : Location :=
  if c = '\n' then ⟨loc.path, loc.line + 1, 1⟩ else ⟨loc.path, loc.line, loc.column + 1⟩

def render (loc : Location) : String :=
  loc.path ++ " (" ++ toString loc.line ++ ", " ++ toString loc.column ++ ")"

/-- Locations are ordered by path, then line, then column; paths by their characters. -/
def order (a b : Location) : Ordering :=
  (compare a.path b.path).then ((compare a.line b.line).then (compare a.column b.column))

end Location

end TokenForth
