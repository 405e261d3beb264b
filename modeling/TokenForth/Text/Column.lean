/-!
# Columns of text

Texts filled with spaces to a width counted in characters. A text that is already as wide is left
as it is.
-/
namespace TokenForth.Text

def spaces (count : Nat) : String := String.ofList (List.replicate count ' ')

def alignLeft (width : Nat) (text : String) : String := text ++ spaces (width - text.length)

def alignRight (width : Nat) (text : String) : String := spaces (width - text.length) ++ text

end TokenForth.Text
