import TokenForth.Numeral
import TokenForth.Text.Unseen

/-!
# Escaped text

A text between quotation marks on one line. Quotation marks and backslashes stand behind a
backslash, a few controls have a letter, and any other character that does not show is written as
its code in hexadecimal.
-/
namespace TokenForth.Text

def escapeChar (c : Char) : String :=
  match c with
  | '\t' => "\\t"
  | '\r' => "\\r"
  | '\n' => "\\n"
  | '"' => "\\\""
  | '\\' => "\\\\"
  | '\x00' => "\\0"
  | c => if isUnseen c then "\\u\x7b" ++ String.ofList (Numeral.magnitude 16 c.toNat) ++ "\x7d" else c.toString

/-- The text with its escapes, between quotation marks. -/
def quoted (text : String) : String :=
  "\"" ++ String.join (text.toList.map escapeChar) ++ "\""

end TokenForth.Text
