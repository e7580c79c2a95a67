import Independence.Analysis.Table
import Independence.Analysis.Traversal
import Independence.Analysis.Failure
import Independence.Program.Placeholder
import Independence.Report.Reporter
/-!
# The state of an analysis

Everything that an analysis reads and changes, and the steps that open something and close it again on every
exit.
-/

namespace Independence

/-- What is fixed for an analysis: the names in its messages and how deep candidates may be nested. -/
structure Setup where
  names : Names
  maxNesting : Nat

/-- What became of a request for a callable. -/
inductive Outcome where
  | accepted
  /-- It was the registration that was accepted, seen again. -/
  | repeated
  /-- It was a duplicate and reported. -/
  | duplicate (d : Decision)
deriving DecidableEq, Repr

/-- A request that was processed: the callable it stood for, where it was made, the candidates in progress
then, innermost first, and what became of it. -/
structure Visit where
  callable : CallableId
  location : Option Location
  enclosing : List CallableId
  outcome : Outcome
deriving DecidableEq, Repr

def Visit.owner (v : Visit) : Option CallableId := v.enclosing.head?

structure Session (m : Type) where
  evaluator : m
  traversal : Traversal
  /-- The requests that no candidate registered and that are still to be processed. -/
  queue : List Request
  /-- The requests processed so far, the latest first. -/
  visits : List Visit
  placeholders : Placeholders
  table : Table
  reporter : Reporter

/-- A step of the analysis. A failure leaves the state as it is then. -/
abbrev Analysis (m α : Type) := EStateM Failure (Session m) α

namespace Session

variable {m : Type}

def start (evaluator : m) (roots : List Request) (reporter : Reporter) : Session m :=
  ⟨evaluator, .empty, roots, [], .none, .empty, reporter⟩

end Session

/-- The request that was accepted for a callable. -/
def Session.accepted? {m : Type} (s : Session m) (f : CallableId) : Option Visit :=
  s.visits.find? fun v => v.callable == f && v.outcome == .accepted

namespace Analysis

variable {m : Type} {α : Type}

def report (d : Diagnostic) : Analysis m Decision := fun s =>
  let (decision, reporter) := s.reporter.report d
  .ok decision { s with reporter }

def fail (d : Diagnostic) (e : Failure) : Analysis m α := do
  let _ ← report d
  throw e

def inFrame (f : CallableId) (body : Analysis m α) : Analysis m α := fun s =>
  let leave (s : Session m) : Session m := { s with traversal := s.traversal.leave }
  match body { s with traversal := s.traversal.enter f } with
  | .ok a s => .ok a (leave s)
  | .error e s => .error e (leave s)

def committed [Evaluator m] (e : Effects) (body : Analysis m α) : Analysis m α := fun s =>
  let (evaluator, undo) := Evaluator.commit e s.evaluator
  let undone (s : Session m) : Session m := { s with evaluator := Evaluator.rollback s.evaluator undo }
  match body { s with evaluator } with
  | .ok a s => .ok a (undone s)
  | .error e s => .error e (undone s)

end Analysis

end Independence
