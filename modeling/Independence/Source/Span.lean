/-!
# Spans and locations

A span is a byte range of one source text together with the line and column of its start. A location is
a span inside a named file. Both are ordered field by field; locations order the file name first.
-/

namespace Independence

/-- A byte range with the 1-based line and column of its start. Line 0 marks a dummy span. -/
structure Span where
  start : Nat
  stop : Nat
  line : Nat
  column : Nat
deriving DecidableEq, Repr

namespace Span

/-- The span of code that stands in no source text. -/
def dummy : Span := ⟨0, 0, 0, 0⟩

instance : Inhabited Span := ⟨dummy⟩

/-- The first ten bytes of line `n` of a text whose lines are a hundred bytes long. -/
def ofLine (n : Nat) : Span := ⟨n * 100, n * 100 + 10, n, 1⟩

/-- A span that was not read from a source text. -/
def isDummy (s : Span) : Bool := s.line == 0

def isEmpty (s : Span) : Bool := s.start == s.stop

/-- A span that ends before it starts has no length. -/
inductive LengthError where
  | reversed
deriving DecidableEq, Repr

def LengthError.message : LengthError → String
  | .reversed => "attempt to subtract with overflow"

def length (s : Span) : Except LengthError Nat :=
  if s.stop < s.start then .error .reversed else .ok (s.stop - s.start)

/-- The smallest range that covers both; the line and column are those of the span that starts first,
of `s` if both start together. -/
def merge (s t : Span) : Span :=
  let first := if s.start ≤ t.start then s else t
  ⟨min s.start t.start, max s.stop t.stop, first.line, first.column⟩

/-- Spans are ordered by start, then end, line and column. -/
instance : Ord Span where
  compare s t :=
    (compare s.start t.start).then <| (compare s.stop t.stop).then <|
      (compare s.line t.line).then (compare s.column t.column)

end Span

/-- A span inside a named file. Two accesses are at one site exactly when their locations are equal. -/
structure Location where
  file : String
  span : Span
deriving DecidableEq, Repr

namespace Location

/-- Locations are ordered by file name, then span. -/
instance : Ord Location where
  compare a b := (compare a.file b.file).then (compare a.span b.span)

/-- `file:line:column`, or the file alone for a dummy span. -/
def text (l : Location) : String :=
  if l.span.isDummy then l.file else s!"{l.file}:{l.span.line}:{l.span.column}"

end Location

end Independence
