import Independence.Source.Span
/-!
# Lines and columns of byte offsets

The position of a byte offset is found by walking whole characters until the offset is reached: an offset
inside a character counts as the end of that character, and one past the end as the end of the text.
-/

namespace Independence

/-- A 1-based line and a 1-based column counted in characters. -/
structure Position where
  line : Nat
  column : Nat
deriving DecidableEq, Repr

namespace Position

def start : Position := ⟨1, 1⟩

def advance (p : Position) (c : Char) : Position :=
  if c = '\n' then ⟨p.line + 1, 1⟩ else ⟨p.line, p.column + 1⟩

/-- Walks over `text` from position `p` until `bytes` more bytes are passed. -/
def walk (p : Position) : List Char → Nat → Position
  | [], _ => p
  | _, 0 => p
  | c :: text, bytes@(_ + 1) => walk (p.advance c) text (bytes - c.utf8Size)

/-- The position of the byte offset `offset` of `source`. -/
def ofOffset (source : String) (offset : Nat) : Position :=
  walk start source.toList offset

end Position

/-- The span of the bytes from `start` to `stop` of `source`. -/
def Span.ofRange (start stop : Nat) (source : String) : Span :=
  let p := Position.ofOffset source start
  ⟨start, stop, p.line, p.column⟩

end Independence
