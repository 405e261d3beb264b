import TokenForth.Token

/-!
# Streams of tokens

A stream is a place in a token list that moves forward only: the tokens it still has to give.
-/
namespace TokenForth

structure TokenStream where
  rest : List Token
  deriving DecidableEq, Repr, Inhabited

namespace TokenStream

def peek (s : TokenStream) (n : Nat) : Option Token := s.rest[n]?

def next (s : TokenStream) : Option Token × TokenStream :=
  match s.rest with
  | [] => (none, s)
  | t :: rest => (some t, ⟨rest⟩)

def remaining (s : TokenStream) : Nat := s.rest.length

end TokenStream

end TokenForth
