import TokenForth.Location

/-!
# Reading characters

A reader gives out the characters of a source in order and knows where it stands. It can look any
number of characters ahead: what it has looked at waits in a queue, and only taking a character
moves the location.
-/
namespace TokenForth

structure Reader where
  /-- The characters looked at and not yet taken. -/
  ahead : List Char
  /-- The characters not yet looked at. -/
  unread : List Char
  location : Location
  deriving DecidableEq, Repr

namespace Reader

def ofText (path text : String) : Reader := ⟨[], text.toList, Location.start path⟩

/-- The characters still to be taken. -/
def rest (r : Reader) : List Char := r.ahead ++ r.unread

/-- Looks at the characters up to the one `n` places ahead. -/
def lookTo (n : Nat) (r : Reader) : Reader :=
  let missing := n + 1 - r.ahead.length
  { r with ahead := r.ahead ++ r.unread.take missing, unread := r.unread.drop missing }

def peek (n : Nat) (r : Reader) : Option Char × Reader :=
  let r := r.lookTo n
  (r.ahead[n]?, r)

def hasNext (n : Nat) (r : Reader) : Bool × Reader :=
  let (c, r) := r.peek n
  (c.isSome, r)

def next (r : Reader) : Option Char × Reader :=
  match r.ahead, r.unread with
  | c :: ahead, unread => (some c, ⟨ahead, unread, r.location.advance c⟩)
  | [], c :: unread => (some c, ⟨[], unread, r.location.advance c⟩)
  | [], [] => (none, r)

def skip : Nat → Reader → Reader
  | 0, r => r
  | n + 1, r => skip n r.next.2

def takeWhile (p : Char → Bool) (r : Reader) : List Char × Reader :=
  let taken := r.rest.takeWhile p
  (taken, r.skip taken.length)

@[simp] theorem rest_lookTo (n : Nat) (r : Reader) : (r.lookTo n).rest = r.rest := by
  simp [lookTo, rest, List.append_assoc, List.take_append_drop]

@[simp] theorem rest_peek (n : Nat) (r : Reader) : (r.peek n).2.rest = r.rest := by
  simp [peek]

theorem peek_fst (n : Nat) (r : Reader) : (r.peek n).1 = r.rest[n]? := by
  simp only [peek, lookTo, rest]
  by_cases h : n < r.ahead.length
  · rw [List.getElem?_append_left h, List.getElem?_append_left h]
  · have hn : r.ahead.length ≤ n := by omega
    rw [List.getElem?_append_right hn, List.getElem?_append_right hn, List.getElem?_take]
    simp; omega

@[simp] theorem rest_next (r : Reader) : r.next.2.rest = r.rest.tail := by
  obtain ⟨ahead, unread, loc⟩ := r
  cases ahead <;> cases unread <;> rfl

theorem next_fst (r : Reader) : r.next.1 = r.rest.head? := by
  obtain ⟨ahead, unread, loc⟩ := r
  cases ahead <;> cases unread <;> rfl

@[simp] theorem rest_skip (n : Nat) (r : Reader) : (r.skip n).rest = r.rest.drop n := by
  induction n generalizing r with
  | zero => rfl
  | succ n ih => simp [skip, ih]

end Reader

end TokenForth
