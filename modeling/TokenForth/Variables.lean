import TokenForth.Cell

/-!
# Variables

A variable is a name for an address, and the addresses are handed out one after the other. Cells
are stored by address, also at addresses that no variable has.
-/
namespace TokenForth

structure Variables where
  /-- The address for the next new name. -/
  next : Cell
  addresses : List (String × Cell) := []
  cells : List (Cell × Cell) := []
  deriving DecidableEq, Repr

namespace Variables

/-- The address of the first variable, unless another is chosen. -/
def defaultBase : Cell := 1000

def empty (base : Cell) : Variables := { next := base }

def address? (v : Variables) (name : String) : Option Cell := v.addresses.lookup name

def fetch? (v : Variables) (address : Cell) : Option Cell := v.cells.lookup address

def store (v : Variables) (address value : Cell) : Variables :=
  { v with cells := (address, value) :: v.cells.filter fun entry => entry.1 != address }

/-- The address of a name. A new name takes the next address and stores zero there. -/
def allocate (v : Variables) (name : String) : Cell × Variables :=
  match v.address? name with
  | some address => (address, v)
  | none =>
    let named := { v with next := v.next + 1, addresses := (name, v.next) :: v.addresses }
    (v.next, named.store v.next 0)

end Variables

end TokenForth
