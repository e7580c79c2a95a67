import Independence.Heap.Effects
import Independence.Program.Signature
import Independence.Evaluation.Evaluator
/-!
# Candidates, their records and their names

A candidate is a callable that somebody asked to have analysed. Its record says what one evaluation of it did
and which committed candidate revealed it.
-/

namespace Independence

/-- A callable accepted for analysis, with the request that named it. -/
structure Candidate where
  callable : CallableId
  request : Request
deriving Repr

/-- What evaluating one candidate did, and against which baseline. -/
structure Record where
  candidate : Candidate
  signature : Signature
  effects : Effects
  /-- The candidate whose committed effects revealed this one. -/
  parent : Option CallableId
  baseline : BaselineId

def Record.owner (r : Record) : CallableId := r.candidate.callable

/-- Names given to callables from outside, the latest first. -/
structure Names where
  overrides : List (CallableId × String)
deriving DecidableEq, Repr

namespace Names

def empty : Names := ⟨[]⟩

/-- Names given one after the other: the last name given to a callable counts. -/
def ofList (names : List (CallableId × String)) : Names := ⟨names.reverse⟩

/-- The name of a callable that has no better one. -/
def unknown : String := "(unknown function)"

/-- The name of a callable in messages: the one given from outside, else its own unless that is empty. -/
def resolve {m : Type} [Evaluator m] (n : Names) (s : m) (f : CallableId) : String :=
  match n.overrides.lookup f with
  | some name => name
  | none =>
    (((Evaluator.signature? s f).bind Signature.name).filter (· ≠ "")).getD unknown

end Names

end Independence
