import TokenForth.Machine

/-!
# Words that work with names

Variables, constants and the dictionary. These words read the name they work on from the running
stream, before they take anything from the stack.
-/
namespace TokenForth

open Machine

def Storage.run : Storage → Exec Unit
  | declare => do
    let (name, _) ← nextName
    let _ ← allocate name
  | constant => do
    let (name, location) ← nextName
    let value ← pop
    addWord {
      name := name
      action := .primitive (.literal value)
      location := some location
      description := "Constant value."
      signature := " -- value" }
  | store => do
    let address ← pop
    let value ← pop
    Machine.store address value
  | fetch => do
    let address ← pop
    let value ← Machine.fetch address
    push value

def Listing.run : Listing → Exec Unit
  | forget => do
    let (name, _) ← nextName
    forgetWord name
  | words => do
    let m ← Exec.state
    write m.dictionary.render
  | see => do
    let (name, _) ← nextName
    let word ← findWord name
    write (word.render ++ "\n")

end TokenForth
