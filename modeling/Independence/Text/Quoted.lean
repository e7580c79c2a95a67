import Independence.Text.Unprintable
import Independence.Text.Extending
/-!
# Quoted text

A string between double quotes. The quote, the backslash and the characters that would not show as
themselves are escaped, so that the quoted form fits on one line and names each character.
-/

namespace Independence.Text

/-- The code point in lower-case hexadecimal, without padding, between braces. -/
def codePointEscape (c : Char) : String :=
  "\\u\x7b" ++ String.ofList (Nat.toDigits 16 c.toNat) ++ "\x7d"

/-- The form of one character inside quotes. An apostrophe stands for itself. -/
def quotedChar (c : Char) : String :=
  match c with
  | '"' => "\\\""
  | '\\' => "\\\\"
  | '\n' => "\\n"
  | '\r' => "\\r"
  | '\t' => "\\t"
  | '\x00' => "\\0"
  | c => if isExtending c || isUnprintable c then codePointEscape c else c.toString

/-- The text between double quotes, with escapes. -/
def quoted (s : String) : String :=
  "\"" ++ String.join (s.toList.map quotedChar) ++ "\""

end Independence.Text
