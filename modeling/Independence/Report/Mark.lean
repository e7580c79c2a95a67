import Independence.Report.Diagnostic
import Independence.Source.Lines
/-!
# Marks in sources

The places that a diagnostic points to, with their colors. Spans count bytes and are cut to the bytes of the
first text registered for a file. The marks are then placed by character offset in the last text registered
for it, and those that do not fit in are dropped.
-/

namespace Independence

/-- Source texts by file name, in order of registration. -/
structure Sources where
  files : List (String × String)
deriving DecidableEq, Repr

namespace Sources

def first? (s : Sources) (file : String) : Option String := s.files.lookup file

def last? (s : Sources) (file : String) : Option String := s.files.reverse.lookup file

end Sources

inductive Color where
  | blue
  | magenta
  | red
  | yellow
deriving DecidableEq, Repr

namespace Color

def all : List Color := [blue, magenta, red, yellow]

def name : Color → String
  | blue => "blue"
  | magenta => "magenta"
  | red => "red"
  | yellow => "yellow"

end Color

namespace Severity

/-- The color of the main label and of primary labels. -/
def color : Severity → Color
  | warning => .yellow
  | recoverable => .magenta
  | fatal => .red

/-- The word that opens the head line, and its color. -/
def headline : Severity → String × Color
  | warning => ("Warning", .yellow)
  | recoverable | fatal => ("Error", .red)

end Severity

structure Mark where
  file : String
  start : Nat
  stop : Nat
  color : Color
deriving DecidableEq, Repr

namespace Mark

/-- The span cut to a text of `length` bytes. -/
def place (l : Location) (length : Nat) (color : Color) : Mark :=
  let start := min l.span.start length
  ⟨l.file, start, max start (min l.span.stop length), color⟩

/-- The offset of the last character, or of the mark itself if it is empty. -/
def lastOffset (m : Mark) : Nat := max m.start (m.stop - 1)

/-- Whether the mark fits into the text last registered for its file. -/
def isVisible (s : Sources) (m : Mark) : Bool :=
  match s.last? m.file with
  | none => false
  | some text =>
    (Lines.position? text m.start).isSome && (Lines.position? text m.lastOffset).isSome

/-- The marks of a diagnostic: one for its own location, then one for each label whose file is known. -/
def ofDiagnostic (s : Sources) (d : Diagnostic) (location : Location) (text : String) : List Mark :=
  place location text.utf8ByteSize d.severity.color ::
    d.labels.filterMap fun l =>
      (s.first? l.location.file).map fun text =>
        place l.location text.utf8ByteSize (if l.primary then d.severity.color else .blue)

end Mark

end Independence
