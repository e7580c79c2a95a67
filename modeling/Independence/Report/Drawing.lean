import Independence.Report.Mark
import Independence.Text.Blank
import Independence.Text.ZeroWidth
/-!
# Drawing marks

How the marks of one file are drawn into its lines, as far as their colors go. A mark that starts and ends on
the same line is short, any other is long. A long mark is led through the margin from its first line to its
last, so its color always shows. A short mark is underlined, and an arrow below the line that holds it leads
from its middle to the right. Each character of a line has the color of the shortest mark on it.

Below a character of width zero nothing can be drawn. Hence a short mark stays without color if no line holds
it as a whole, or if it is empty and its arrow lies below such characters only.
-/

namespace Independence

/-- A mark of a text: its number among the marks there, and the lines of its first and last character. -/
structure PlacedMark extends Mark where
  index : Nat
  firstLine : Nat
  lastLine : Nat
deriving DecidableEq, Repr

namespace PlacedMark

/-- Places a mark in a text, if it fits in. -/
def ofMark? (text : String) (index : Nat) (m : Mark) : Option PlacedMark := do
  let first ← Lines.position? text m.start
  let last ← Lines.position? text m.lastOffset
  return ⟨m, index, first.line, last.line⟩

def isLong (p : PlacedMark) : Bool := p.firstLine != p.lastLine

def length (p : PlacedMark) : Nat := p.stop - p.start

def covers (p : PlacedMark) (offset : Nat) : Bool := p.start ≤ offset && offset < p.stop

/-- The shortest of some marks, and of several the first. -/
def shortest? (marks : List PlacedMark) : Option PlacedMark :=
  (marks.mergeSort fun p q => p.length ≤ q.length).head?

end PlacedMark

/-- A line of a text with its terminator, its number and the offset of its first character. -/
structure SourceLine where
  number : Nat
  offset : Nat
  chars : List Char
deriving DecidableEq, Repr

namespace SourceLine

/-- The lines of a text of which the first has number `number` and starts at `offset`. -/
def listFrom (number offset : Nat) : List (List Char) → List SourceLine
  | [] => []
  | line :: lines => ⟨number, offset, line⟩ :: listFrom (number + 1) (offset + line.length) lines

def stop (l : SourceLine) : Nat := l.offset + l.chars.length

def holds (l : SourceLine) (offset : Nat) : Bool := l.offset ≤ offset && offset < l.stop

/-- The characters that are shown: all but the blank ones at the end. -/
def shown (l : SourceLine) : List Char := (l.chars.reverse.dropWhile Text.isBlank).reverse

/-- The columns below `count` under which something can be drawn. There is room behind the characters. -/
def columns (l : SourceLine) (count : Nat) : List Nat :=
  let room := l.shown.map fun c => !Text.isZeroWidth c
  let cells := (room ++ List.replicate (count - room.length) true).take count
  cells.zipIdx.filterMap fun (free, column) => if free then some column else none

end SourceLine

/-- An arrow between a column of a line and a mark. -/
structure Arrow where
  column : Nat
  mark : PlacedMark
deriving DecidableEq, Repr

namespace Arrow

/-- The arrow of a long mark on the line where it starts or ends. -/
def ofLong? (l : SourceLine) (p : PlacedMark) : Option Arrow :=
  if l.holds p.start then some ⟨p.start - l.offset, p⟩
  else if l.holds p.lastOffset then some ⟨p.lastOffset - l.offset, p⟩
  else none

/-- The arrow of a short mark on a line that holds it. An empty mark between two lines is held by both. -/
def ofShort? (l : SourceLine) (p : PlacedMark) : Option Arrow :=
  if l.offset ≤ p.start ∧ p.stop ≤ l.stop then some ⟨(p.start + p.stop) / 2 - l.offset, p⟩ else none

/-- Arrows from left to right, and of those in one column the mark that starts last first. -/
def arrange (arrows : List Arrow) : List Arrow :=
  arrows.mergeSort fun a b =>
    a.column < b.column || (a.column == b.column && b.mark.start ≤ a.mark.start)

end Arrow

structure DrawnLine where
  line : SourceLine
  /-- The long marks of the text, the longest first. -/
  long : List PlacedMark
  /-- The arrow that enters the line from the margin. -/
  entry : Option Arrow
  /-- The arrows below the line, each in a row of its own. -/
  arrows : List Arrow
deriving DecidableEq, Repr

namespace DrawnLine

/-- Draws marks on a line. The first arrow of a long mark enters the line from the margin. It is drawn below the
line too if the mark ends here. -/
def ofMarks (marks : List PlacedMark) (l : SourceLine) : DrawnLine :=
  let long := (marks.filter (·.isLong)).mergeSort fun p q => q.length ≤ p.length
  let ofLong := long.filterMap (Arrow.ofLong? l)
  let entry := (Arrow.arrange ofLong).head?
  let below := ofLong.filter fun a =>
    !(l.holds a.mark.start && entry.any (·.mark.index == a.mark.index))
  let ofShort := (marks.filter (!·.isLong)).filterMap (Arrow.ofShort? l)
  ⟨l, long, entry, Arrow.arrange (below ++ ofShort)⟩

/-- The columns under which something can be drawn. They reach two columns past the marks of the line. -/
def columns (d : DrawnLine) : List Nat :=
  let reach := d.arrows.foldl (fun reach a =>
    if a.mark.isLong then d.line.chars.length else max reach (a.mark.stop - d.line.offset)) 0
  d.line.columns (reach + 2)

def textColors (d : DrawnLine) : List Color :=
  (List.range d.line.shown.length).filterMap fun column =>
    (PlacedMark.shortest? ((d.long ++ d.arrows.map Arrow.mark).filter
      (·.covers (d.line.offset + column)))).map (·.color)

/-- The colors of the row below the characters: the heads of the arrows, and underlines between them. -/
def underlineColors (d : DrawnLine) : List Color :=
  let isEntry (a : Arrow) := d.entry.any (·.mark.index == a.mark.index)
  d.columns.filterMap fun column =>
    match d.arrows.find? fun a => a.column == column && !isEntry a with
    | some a => some a.mark.color
    | none =>
      (PlacedMark.shortest? ((d.arrows.map Arrow.mark).filter fun p =>
        !p.isLong && p.covers (d.line.offset + column))).map (·.color)

/-- The colors of the arrows of short marks. Each runs from its column to the right. -/
def arrowColors (d : DrawnLine) : List Color :=
  d.arrows.filterMap fun a =>
    if !a.mark.isLong && d.columns.any (a.column ≤ ·) then some a.mark.color else none

/-- The colors on and below a line. A line without an arrow is not shown. -/
def colors (d : DrawnLine) : List Color :=
  if d.entry.isNone && d.arrows.isEmpty then []
  else d.textColors ++ d.underlineColors ++ d.arrowColors

end DrawnLine

namespace Drawing

/-- The lines of a text from the first mark to the last, with the marks drawn on them. -/
def lines (text : String) (marks : List PlacedMark) : List DrawnLine :=
  match (marks.map (·.start)).min?, (marks.map (·.stop)).max? with
  | some start, some stop =>
    let lineAt (offset : Nat) := ((Lines.position? text offset).map Position.line).getD 1
    let first := lineAt start
    let last := lineAt (max start (stop - 1))
    ((SourceLine.listFrom 1 0 (Lines.split text.toList)).filter fun l =>
      first ≤ l.number && l.number ≤ last).map (DrawnLine.ofMarks marks)
  | _, _ => []

/-- The colors that show when marks are drawn into a text. -/
def colors (text : String) (marks : List Mark) : List Color :=
  let placed := marks.zipIdx.filterMap fun (m, index) => PlacedMark.ofMark? text index m
  (placed.filter (·.isLong)).map (·.color) ++ (lines text placed).flatMap DrawnLine.colors

end Drawing

end Independence
