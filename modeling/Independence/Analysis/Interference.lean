import Independence.Analysis.Capture
/-!
# Interference between candidates

Each candidate is replayed once under the committed effects of its ancestors, and its accesses are noted with
the innermost candidate whose body was running. An access is in conflict with another candidate that writes
what it reads, unless that one is an ancestor, whose writes the access is meant to see, or was the one running.
-/

namespace Independence

/-- A located access, and the innermost candidate that was running then. -/
structure Access (α : Type) where
  target : α
  location : Location
  within : CallableId
deriving DecidableEq, Repr

/-- The accesses of one replay, in order. -/
structure Accesses where
  reads : List (Access Binding)
  enumerations : List (Access ObjectId)
deriving DecidableEq, Repr

structure Replay where
  /-- The callables whose bodies are running, innermost first. -/
  calls : List CallableId
  reads : Array (Access Binding)
  enumerations : Array (Access ObjectId)
deriving DecidableEq, Repr

namespace Replay

def start : Replay := ⟨[], #[], #[]⟩

def accesses (r : Replay) : Accesses := ⟨r.reads.toList, r.enumerations.toList⟩

/-- The innermost running candidate, `reader` if no running body belongs to one. -/
def running (t : Table) (reader : CallableId) (r : Replay) : CallableId :=
  (r.calls.find? t.contains).getD reader

/-- Notes the accesses of a replay of `reader` whose locations are known. Side effects pass. -/
def observer (t : Table) (reader : CallableId) : Observer Replay where
  answer e r := (.proceed,
    match e with
    | .read b (some location) => { r with reads := r.reads.push ⟨b, location, r.running t reader⟩ }
    | .enumerate o (some location) =>
      { r with enumerations := r.enumerations.push ⟨o, location, r.running t reader⟩ }
    | .enter f => { r with calls := f :: r.calls }
    | .exit _ => { r with calls := r.calls.tail }
    | .sideEffect _ | .register _ | .read _ none | .enumerate _ none => r)

end Replay

/-- An access that sees another candidate's write. -/
structure Conflict where
  location : Location
  name : String
  writer : CallableId
  reader : CallableId
deriving DecidableEq, Repr

namespace Conflict

def message (c : Conflict) : String :=
  s!"Property access conflicts with write in optimized function {c.name}"

def diagnostic (c : Conflict) : Diagnostic :=
  (Diagnostic.fatal .writeConflict c.message (some c.location)).withLabel
    ⟨c.location, s!"observes state written by {c.name}", true⟩

def firstAtEach : List Conflict → List Conflict
  | [] => []
  | c :: cs => c :: (firstAtEach cs).filter (·.location ≠ c.location)

end Conflict

namespace Table

/-- Where an access in a replay sees what `writer` writes: reads first, then enumerations. -/
def sees (writer : Record) (a : Accesses) : List Location :=
  (a.reads.filter fun r => r.within ≠ writer.owner && writer.effects.writesBinding r.target).map
      (·.location) ++
    (a.enumerations.filter fun e => e.within ≠ writer.owner && writer.effects.writesObject e.target).map
      (·.location)

/-- Whether the accesses of `reader` count against `writer`. -/
def concerns (t : Table) (writer reader : Record) : Bool :=
  reader.owner ≠ writer.owner && !t.isAncestor writer.owner reader.owner

/-- The conflicts between the records of the table, given the accesses of their replays: by writer, then
reader, then access, and the first one at each location only. -/
def conflicts (t : Table) (nameOf : CallableId → String) (observed : List Accesses) : List Conflict :=
  Conflict.firstAtEach <|
    t.records.flatMap fun writer =>
      (t.records.zip observed).flatMap fun (reader, accesses) =>
        if t.concerns writer reader then
          (sees writer accesses).map fun location =>
            ⟨location, nameOf writer.owner, writer.owner, reader.owner⟩
        else []

end Table

namespace Analysis

variable {m : Type} [Evaluator m]

def abruptDiagnostic (name : String) (r : Record) (a : Abrupt) : Diagnostic :=
  .fatal .abruptCompletion s!"Optimized function {name} {a.verb} on every path"
    (a.location <|> some r.signature.location)

/-- Reports a record if it is definitely abrupt, and tells whether it is. -/
def reportAbrupt (setup : Setup) (r : Record) : Analysis m Bool := do
  match r.effects.result with
  | .abrupt a =>
    let name := setup.names.resolve (← get).evaluator r.owner
    let _ ← report (abruptDiagnostic name r a)
    return true
  | .normal _ | .possiblyAbrupt _ _ => return false

/-- Reports every record that is definitely abrupt, and fails if there are any. -/
def checkCompletions (setup : Setup) : Analysis m Unit := do
  let abrupt ← (← get).table.records.mapM (reportAbrupt setup)
  let count := abrupt.count true
  if 0 < count then throw (.abruptCompletion count)

/-- Evaluates a call and keeps what a replay watches, however the evaluation ends. -/
def watchReplay (t : Table) (reader : CallableId) (call : Call) (s : m) : Accesses × m :=
  match Evaluator.evaluate (Replay.observer t reader) call (Replay.start, s) with
  | .ok _ (r, s) | .error _ (r, s) => (r.accesses, s)

/-- Replays a record under its ancestors, the outermost committed first. -/
def replay (setup : Setup) (r : Record) : Analysis m Accesses := do
  let s ← get
  let f := r.owner
  match s.placeholders.synthesize f r.signature r.candidate.request.shape with
  | .error p => throw (.unsupportedParameter f (setup.names.resolve s.evaluator f) p.index)
  | .ok (call, placeholders) =>
    let chain := (s.table.ancestors f).map (·.effects)
    let (accesses, evaluator) := Evaluator.withinAll chain (watchReplay s.table f call) s.evaluator
    set { s with placeholders, evaluator }
    return accesses

def replayAll (setup : Setup) : Analysis m (List Accesses) := do
  (← get).table.records.mapM (replay setup)

/-- Finds all conflicts, provided that no candidate throws on every path. -/
def verify (setup : Setup) : Analysis m (List Conflict) := do
  checkCompletions setup
  let observed ← replayAll setup
  let s ← get
  return s.table.conflicts (setup.names.resolve s.evaluator) observed

/-- Reports conflicts, and aborts if there are any. -/
def reportConflicts (conflicts : List Conflict) : Analysis m Decision := do
  conflicts.forM fun c => do
    let _ ← report c.diagnostic
  return if conflicts.isEmpty then .proceed else .abort

end Analysis

end Independence
