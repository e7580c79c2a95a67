import Independence.Report.Drawing
/-!
# Showing diagnostics in their sources

A diagnostic whose file is known is shown with excerpts of the sources: a head line, one section for each file
that a visible mark points into, and the suggestions. Without its file it is shown as one plain line.
-/

namespace Independence

structure Excerpt where
  head : String
  /-- File, line and column at the top of each section. -/
  references : List String
  help : List String
  /-- The colors that occur, none if colors are off. -/
  colors : List Color
deriving DecidableEq, Repr

inductive Rendering where
  | plain (line : String)
  | excerpt (e : Excerpt)
deriving DecidableEq, Repr

namespace Rendering

/-- The lines of a text, each without a carriage return at its end. A text that ends in a line feed has a
last line that is empty. -/
def textLines (text : String) : List String :=
  (text.splitOn "\n").map fun line =>
    match line.toList.reverse with
    | '\r' :: rest => String.ofList rest.reverse
    | _ => line

/-- File, line and column of a character offset. -/
def reference (s : Sources) (file : String) (offset : Nat) : String :=
  match (s.last? file).bind (Lines.position? · offset) with
  | some p => s!"{file}:{p.line}:{p.column}"
  | none => s!"{file}:?:?"

/-- The reference of the section for a file: the diagnostic's own place if it is the diagnostic's file, else
that of the first mark in the file. -/
def sectionReference (s : Sources) (own : Mark) (marks : List Mark) (file : String) : String :=
  let mark := if file = own.file then own else (marks.find? (·.file == file)).getD own
  reference s file mark.start

/-- The excerpt of a diagnostic at a location in a file with the given text. -/
def excerptOf (s : Sources) (color : Bool) (d : Diagnostic) (location : Location) (text : String) :
    Excerpt :=
  let own := Mark.place location text.utf8ByteSize d.severity.color
  let marks := (Mark.ofDiagnostic s d location text).filter (·.isVisible s)
  let files := (marks.map Mark.file).eraseDups
  let (word, headColor) := d.severity.headline
  let drawn := files.flatMap fun file =>
    Drawing.colors ((s.last? file).getD "") (marks.filter (·.file == file))
  { head := (textLines s!"{word}: [{d.code.text}] {d.message}").headD ""
    references := files.map (sectionReference s own marks)
    help :=
      if files.isEmpty || d.suggestions.isEmpty then [] else textLines ("\n".intercalate d.suggestions)
    colors := if color then Color.all.filter (headColor :: drawn).contains else [] }

/-- Shows a diagnostic, with excerpts if its file is known. -/
def render (s : Sources) (color : Bool) (d : Diagnostic) : Rendering :=
  match d.location.bind fun location => (s.first? location.file).map (location, ·) with
  | none => .plain (d.text ++ "\n")
  | some (location, text) => .excerpt (excerptOf s color d location text)

end Rendering

end Independence
