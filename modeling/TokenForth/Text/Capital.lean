/-!
# Capital letters

Upper-casing as far as the letters `A` to `Z` can come out of it. By the Unicode case mappings a
capital text in those letters alone arises from the letters of the alphabet, the dotless `ı`, the
long `ſ`, the sharp `ß` and the Latin ligatures; every other character maps to something with a
character outside `A` to `Z` in it, and is left as it is.
-/
namespace TokenForth.Text

/-- The capitals of a character, for characters whose capitals are all among `A` to `Z`. -/
def capitals (c : Char) : List Char :=
  if 'a' ≤ c ∧ c ≤ 'z' then [Char.ofNat (c.toNat - 32)]
  else match c with
    | 'ı' => ['I']
    | 'ſ' => ['S']
    | 'ß' => ['S', 'S']
    | 'ﬀ' => ['F', 'F']
    | 'ﬁ' => ['F', 'I']
    | 'ﬂ' => ['F', 'L']
    | 'ﬃ' => ['F', 'F', 'I']
    | 'ﬄ' => ['F', 'F', 'L']
    | 'ﬅ' => ['S', 'T']
    | 'ﬆ' => ['S', 'T']
    | c => [c]

def upper (text : String) : String := String.ofList (text.toList.flatMap capitals)

end TokenForth.Text
