import Independence.Report.Diagnostic
import Independence.Analysis.Interference
/-!
# Records as documents

Spans, locations, diagnostics, conflicts and identities are written as documents and read back. Reading is
strict about types and numbers but ignores fields that it does not know. A record may also be given as the
list of exactly its fields; only a field that may be empty can be left out, and only of a record with names.
-/

namespace Independence

inductive Document where
  | null
  | bool (b : Bool)
  | integer (n : Int)
  /-- A number written with a point or an exponent, or too large for an integer. -/
  | real
  | string (s : String)
  | list (items : List Document)
  | record (fields : List (String × Document))
deriving Inhabited

namespace Document

/-- Integers are read into words of so many values. -/
def natBelow? (limit : Nat) : Document → Option Nat
  | .integer (.ofNat n) => if n < limit then some n else none
  | _ => none

def string? : Document → Option String
  | .string s => some s
  | _ => none

def bool? : Document → Option Bool
  | .bool b => some b
  | _ => none

def list? {α : Type} (item? : Document → Option α) : Document → Option (List α)
  | .list items => items.mapM item?
  | _ => none

/-- Null is read as nothing. -/
def option? {α : Type} (value? : Document → Option α) : Document → Option (Option α)
  | .null => some none
  | d => (value? d).map some

/-- The fields of a record by name, nothing for one that is left out. A list must hold exactly the fields. -/
def fields? (names : List String) : Document → Option (List (Option Document))
  | .record fields => some (names.map fun name => fields.lookup name)
  | .list items => if items.length = names.length then some (items.map some) else none
  | _ => none

/-- The alternative named by a string, or by a record of one field that holds nothing. -/
def tag? {α : Type} (all : List α) (name : α → String) : Document → Option α
  | .string s | .record [(s, .null)] => all.find? (name · == s)
  | _ => none

end Document

/-- How a type is written as a document and read back. -/
class Documented (α : Type) where
  write : α → Document
  read? : Document → Option α

namespace Documented

open Document

/-- Offsets are read into 64 bits. -/
def offsetLimit : Nat := UInt64.size

/-- Lines, columns and identities are read into 32 bits. -/
def wordLimit : Nat := UInt32.size

def writeNat (n : Nat) : Document := .integer n

instance : Documented Span where
  write s := .record
    [("start", writeNat s.start), ("end", writeNat s.stop), ("start_line", writeNat s.line),
      ("start_col", writeNat s.column)]
  read? d := do
    let [start, stop, line, column] ← fields? ["start", "end", "start_line", "start_col"] d | none
    return ⟨← (← start).natBelow? offsetLimit, ← (← stop).natBelow? offsetLimit,
      ← (← line).natBelow? wordLimit, ← (← column).natBelow? wordLimit⟩

instance : Documented Location where
  write l := .record [("file", .string l.file), ("span", write l.span)]
  read? d := do
    let [file, span] ← fields? ["file", "span"] d | none
    return ⟨← (← file).string?, ← read? (← span)⟩

def severityTag : Severity → String
  | .warning => "Warning"
  | .recoverable => "RecoverableError"
  | .fatal => "FatalError"

instance : Documented Severity where
  write s := .string (severityTag s)
  read? := tag? Severity.all severityTag

def codeTag : Code → String
  | .invalidTarget => "InvalidCandidateTarget"
  | .unsupportedParameter => "UnsupportedParameterPattern"
  | .doubleOptimization => "DoubleOptimization"
  | .sideEffect => "SpeculativeSideEffect"
  | .abruptCompletion => "AbruptCompletion"
  | .depthExceeded => "DiscoveryDepthExceeded"
  | .notUnwound => "TraversalNotUnwound"
  | .evaluationFailed => "SubstrateFailure"
  | .writeConflict => "WriteConflict"

instance : Documented Code where
  write c := .string (codeTag c)
  read? := tag? Code.all codeTag

instance : Documented Label where
  write l := .record
    [("location", write l.location), ("message", .string l.message), ("primary", .bool l.primary)]
  read? d := do
    let [location, message, primary] ← fields? ["location", "message", "primary"] d | none
    return ⟨← read? (← location), ← (← message).string?, ← (← primary).bool?⟩

instance : Documented Diagnostic where
  write d := .record
    [("severity", write d.severity), ("code", write d.code), ("message", .string d.message),
      ("location", (d.location.map write).getD .null), ("labels", .list (d.labels.map write)),
      ("suggestions", .list (d.suggestions.map .string))]
  read? d := do
    let names := ["severity", "code", "message", "location", "labels", "suggestions"]
    let [severity, code, message, location, labels, suggestions] ← fields? names d | none
    return ⟨← read? (← severity), ← read? (← code), ← (← message).string?,
      ← option? read? (location.getD .null), ← list? read? (← labels), ← list? string? (← suggestions)⟩

instance : Documented ObjectId where
  write o := .record [("index", writeNat o.index)]
  read? d := do
    let [index] ← fields? ["index"] d | none
    return ⟨← (← index).natBelow? wordLimit⟩

instance : Documented CallableId where
  write f := .record [("index", writeNat f.index)]
  read? d := do
    let [index] ← fields? ["index"] d | none
    return ⟨← (← index).natBelow? wordLimit⟩

instance : Documented Conflict where
  write c := .record
    [("location", write c.location), ("offending_candidate_name", .string c.name),
      ("writer", write c.writer), ("reader", write c.reader)]
  read? d := do
    let names := ["location", "offending_candidate_name", "writer", "reader"]
    let [location, name, writer, reader] ← fields? names d | none
    return ⟨← read? (← location), ← (← name).string?, ← read? (← writer), ← read? (← reader)⟩

end Documented

end Independence
