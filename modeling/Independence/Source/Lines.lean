import Independence.Source.Position
/-!
# Lines of a source text

The lines of a text as an excerpt shows them. A line keeps its terminator, and a carriage return with a line
feed behind it is one terminator. Positions are found by character offset; the offset at the very end of the
text belongs to its last line.
-/

namespace Independence.Lines

def isTerminator (c : Char) : Bool :=
  c == '\n' || c == '\r' || c == '\x0b' || c == '\x0c' || c == '\u0085' || c == '\u2028' || c == '\u2029'

/-- The lines of a text with their terminators. An empty text has no line. -/
def split : List Char → List (List Char)
  | [] => []
  | '\r' :: '\n' :: rest => ['\r', '\n'] :: split rest
  | c :: rest =>
    if isTerminator c then [c] :: split rest
    else match split rest with
      | [] => [[c]]
      | line :: lines => (c :: line) :: lines

/-- The position of a character offset in lines of which the first has number `number`. -/
def locate? (number : Nat) : List (List Char) → Nat → Option Position
  | [], _ => none
  | [line], offset => if offset ≤ line.length then some ⟨number, offset + 1⟩ else none
  | line :: lines, offset =>
    if offset < line.length then some ⟨number, offset + 1⟩
    else locate? (number + 1) lines (offset - line.length)

/-- The position of a character offset of a text. Offsets behind the text have none. -/
def position? (text : String) (offset : Nat) : Option Position := locate? 1 (split text.toList) offset

end Independence.Lines
