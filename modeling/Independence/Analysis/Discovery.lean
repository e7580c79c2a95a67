import Independence.Analysis.Capture
/-!
# Discovering candidates

Requests are processed depth first. After a candidate is captured its effects are committed, and what its own
evaluation registered is processed under that commit, before the next request. A callable is captured once;
a later request for it is a duplicate, unless it is the same registration seen again through an inline call.
-/

namespace Independence

/-- Whether a request from `owner` is the accepted one seen again: a candidate that calls a nested candidate
inline also observes what that one registers, at the same place. -/
def Visit.repeatedBy (first : Visit) (t : Table) (location : Option Location) (owner : Option CallableId) :
    Bool :=
  location.isSome && first.location == location &&
    match first.owner, owner with
    | some f, some g => f == g || t.isAncestor f g || t.isAncestor g f
    | _, _ => false

namespace Analysis

variable {m : Type} [Evaluator m]

/-- Notes what became of a request for `f`. -/
def note (f : CallableId) (request : Request) (outcome : Outcome) : Analysis m Unit :=
  modify fun s =>
    { s with visits := ⟨f, request.location, s.traversal.candidates, outcome⟩ :: s.visits }

def duplicateDiagnostic (name : String) (first : Visit) (location : Option Location) : Diagnostic :=
  let d := Diagnostic.recoverable .doubleOptimization
    s!"Optimized function {name} is registered more than once" location
  match first.location with
  | none => d
  | some firstLocation => d.withNote firstLocation "first registered here"

def again (setup : Setup) (f : CallableId) (first : Visit) (request : Request) : Analysis m Unit := do
  let s ← get
  if first.repeatedBy s.table request.location s.traversal.current? then
    note f request .repeated
  else
    let name := setup.names.resolve s.evaluator f
    let decision ← report (duplicateDiagnostic name first request.location)
    note f request (.duplicate decision)
    match decision with
    | .abort => throw (.doubleOptimization f name)
    | .proceed => return

/-- Captures a candidate and enters its record into the table. The result is the record and the requests that
the candidate registered. -/
def captureNew (setup : Setup) (c : Candidate) : Analysis m (Record × List Request) := do
  let record ← capture setup c
  let s ← get
  match s.table.insert? record with
  | none => throw (.doubleOptimization c.callable (setup.names.resolve s.evaluator c.callable))
  | some table =>
    let (nested, traversal) := s.traversal.takePending
    set { s with table, traversal }
    return (record, nested)

def markCommitted : Analysis m BaselineId := fun s =>
  let (baseline, traversal) := s.traversal.commit
  .ok baseline { s with traversal }

/-- Processes a request and everything that it reveals. The number is how many more frames may be opened. -/
def process (setup : Setup) : Nat → Request → Analysis m Unit
  | levels, request => do
    let s ← get
    match Evaluator.candidate? s.evaluator request.target with
    | none =>
      let target := InvalidTarget.value request.target
      fail (.fatal .invalidTarget
        s!"{target.describe} cannot be optimized: it is neither a function nor a component root"
        request.location) (.invalidTarget target request.location)
    | some f =>
      match s.accepted? f with
      | some first => again setup f first request
      | none =>
        note f request .accepted
        match levels with
        | 0 =>
          let name := setup.names.resolve s.evaluator f
          let depth := s.traversal.depth + 1
          fail (.fatal .depthExceeded
            (s!"optimized function {name} is nested {depth} levels deep, " ++
              s!"the limit is {setup.maxNesting}") request.location) (.depthExceeded setup.maxNesting)
        | levels + 1 =>
          inFrame f do
            let (record, nested) ← captureNew setup ⟨f, request⟩
            unless nested.isEmpty do
              let _ ← markCommitted
              committed record.effects (nested.forM (process setup levels))

/-- Processes the requests one after the other. Those behind a failing one stay in the queue. -/
def drain (setup : Setup) : List Request → Analysis m Unit
  | [] => return
  | request :: queue => do
    modify fun s => { s with queue }
    process setup (setup.maxNesting - (← get).traversal.depth) request
    drain setup queue

/-- Processes every queued request. All frames must be closed then. -/
def discover (setup : Setup) : Analysis m Unit := do
  drain setup (← get).queue
  let t := (← get).traversal
  unless t.isUnwound do
    fail (.fatal .notUnwound s!"candidate traversal finished with {t.depth} frame(s) still open" none)
      (.notUnwound t.depth)

end Analysis

end Independence
