import Independence.Source.Span
/-!
# Diagnostics

Every problem that the analysis finds becomes a diagnostic: a severity, a code, a message, usually a location,
and labels and suggestions for the reader. Two diagnostics are the same report if code, location and message
agree.
-/

namespace Independence

/-- The kinds of problems, by group: candidates (1xx), evaluation (2xx), interference (3xx). -/
inductive Code where
  /-- A registered value is neither callable nor a component root. -/
  | invalidTarget
  | unsupportedParameter
  | doubleOptimization
  /-- An evaluation changed something that can be seen from outside. -/
  | sideEffect
  | abruptCompletion
  /-- Nested candidates went deeper than allowed. -/
  | depthExceeded
  | notUnwound
  | evaluationFailed
  /-- An access sees another candidate's write. -/
  | writeConflict
deriving DecidableEq, Repr

namespace Code

def all : List Code :=
  [invalidTarget, unsupportedParameter, doubleOptimization, sideEffect, abruptCompletion, depthExceeded,
    notUnwound, evaluationFailed, writeConflict]

def number : Code → Nat
  | invalidTarget => 101
  | unsupportedParameter => 102
  | doubleOptimization => 103
  | sideEffect => 201
  | abruptCompletion => 202
  | depthExceeded => 203
  | notUnwound => 204
  | evaluationFailed => 205
  | writeConflict => 301

def ofNumber? (n : Nat) : Option Code := all.find? (·.number == n)

/-- `E` and the number with four digits. -/
def text (c : Code) : String := s!"E0{c.number}"

/-- What the reader can do about the problem. -/
def help? : Code → Option String
  | invalidTarget => some "only functions and component roots can be optimized"
  | unsupportedParameter => some "replace destructuring or rest parameters with plain names"
  | doubleOptimization => some "register each function for optimization once"
  | abruptCompletion => some "make sure the function can return normally on some path"
  | depthExceeded => some "raise `max_nesting_depth` or flatten the nested optimized functions"
  | writeConflict => some "optimized functions must not read state other optimized functions write"
  | sideEffect | notUnwound | evaluationFailed => none

end Code

inductive Severity where
  /-- The analysis goes on unless told otherwise. -/
  | warning
  /-- The analysis stops unless told otherwise. -/
  | recoverable
  | fatal
deriving DecidableEq, Repr

namespace Severity

def all : List Severity := [warning, recoverable, fatal]

def rank : Severity → Nat
  | warning => 0
  | recoverable => 1
  | fatal => 2

instance : Ord Severity := ⟨compareOn rank⟩

def isError (s : Severity) : Bool := s != warning

def text : Severity → String
  | warning => "warning"
  | recoverable => "error"
  | fatal => "fatal error"

end Severity

/-- A message at a location, beside the main one. -/
structure Label where
  location : Location
  message : String
  /-- Shown like the main location. -/
  primary : Bool
deriving DecidableEq, Repr

structure Diagnostic where
  severity : Severity
  code : Code
  message : String
  location : Option Location
  labels : List Label
  suggestions : List String
deriving DecidableEq, Repr

namespace Diagnostic

/-- A diagnostic with the help text of its code as first suggestion. -/
def new (severity : Severity) (code : Code) (message : String) (location : Option Location) : Diagnostic :=
  ⟨severity, code, message, location, [], code.help?.toList⟩

def fatal (code : Code) (message : String) (location : Option Location) : Diagnostic :=
  new .fatal code message location

def recoverable (code : Code) (message : String) (location : Option Location) : Diagnostic :=
  new .recoverable code message location

def warning (code : Code) (message : String) (location : Option Location) : Diagnostic :=
  new .warning code message location

def withLabel (d : Diagnostic) (l : Label) : Diagnostic := { d with labels := d.labels ++ [l] }

def withNote (d : Diagnostic) (location : Location) (message : String) : Diagnostic :=
  d.withLabel ⟨location, message, false⟩

def withSuggestion (d : Diagnostic) (s : String) : Diagnostic := { d with suggestions := d.suggestions ++ [s] }

/-- Whether two diagnostics tell of the same problem at the same place. -/
def sameReport (d e : Diagnostic) : Bool :=
  d.code == e.code && d.location == e.location && d.message == e.message

def text (d : Diagnostic) : String :=
  let head := s!"{d.severity.text}[{d.code.text}]: {d.message}"
  match d.location with
  | none => head
  | some l => s!"{head} at {l.text}"

end Diagnostic

end Independence
