import Independence.Program.Model
import Independence.Evaluation.Event
/-!
# Speculative evaluation of a model

A call is evaluated against a heap that stays as it is: writes are collected, new objects only get a number.
The state of a run survives its failure, so that the observer's state and the object counter are known on
every exit. Recursion is on the number of calls that may still be opened, and within one call on the body.
-/

namespace Independence

/-- The longest chain of calls below the evaluated one. -/
def maxCallDepth : Nat := 32

structure Run (σ : Type) where
  observer : σ
  nextObject : Nat
  created : ObjectSet
  writes : WriteSet
  /-- The first throw that happens on some paths only. -/
  mayThrow : Option Abrupt
  locals : Array ObjectId

inductive Flow where
  | next
  | returned (v : Value)
  | threw (a : Abrupt)

/-- A computation of an evaluation in progress. -/
abbrev Eval (σ α : Type) := EStateM EvalError (Run σ) α

variable {σ : Type}

namespace Run

def start (observer : σ) (nextObject : Nat) : Run σ := ⟨observer, nextObject, ∅, ∅, none, #[]⟩

/-- The state after the observer saw an event whose answer does not matter. -/
def observe (o : Observer σ) (e : Event) (r : Run σ) : Run σ :=
  { r with observer := (o.answer e r.observer).2 }

def allocate (r : Run σ) : Run σ :=
  let object : ObjectId := ⟨r.nextObject⟩
  { r with
    nextObject := r.nextObject + 1
    created := r.created.insert object
    locals := r.locals.push object }

/-- The value that a binding has now: the run's own write, or what the heap holds. -/
def current? (h : Heap) (b : Binding) (r : Run σ) : Option Value :=
  match r.writes[b]? with
  | some site => site.value
  | none => h.get? b

/-- How the evaluation ended, if its body ended with `flow`. -/
def completion (flow : Flow) (r : Run σ) : Completion :=
  let result (v : Value) : Completion :=
    match r.mayThrow with
    | none => .normal v
    | some a => .possiblyAbrupt v a
  match flow with
  | .threw a => .abrupt a
  | .returned v => result v
  | .next => result .undefined

/-- What the run did, if its body ended with `flow`. -/
def effects (flow : Flow) (r : Run σ) : Effects := ⟨r.completion flow, r.created, r.writes⟩

end Run

def notify (o : Observer σ) (e : Event) : Eval σ Unit := modify (Run.observe o e)

/-- Lets the observer see a side effect, and stops if it answers with an abort. -/
def announce (o : Observer σ) (e : SideEffect) : Eval σ Unit := fun r =>
  let (decision, observer) := o.answer (.sideEffect e) r.observer
  match decision with
  | .proceed => .ok () { r with observer }
  | .abort => .error .aborted { r with observer }

/-- The object that a target stands for in the running function. -/
def Target.resolve (location : Location) : Target → Eval σ ObjectId
  | .object o => pure o
  | .allocated n => do
    match (← get).locals[n]? with
    | some o => pure o
    | none => throw (.notAllocated n location)

/-- Runs one operation. Calls go to `invoke`. -/
def Op.run (m : Model) (o : Observer σ) (invoke : CallableId → Location → Eval σ Flow) :
    Op → Eval σ Flow
  | .write target key value span => do
    let location := m.location span
    let object ← target.resolve location
    let b : Binding := ⟨object, key⟩
    unless (← get).created.contains object do
      announce o ⟨.wroteProperty b, some location⟩
    modify fun r => { r with writes := r.writes.insert b ⟨some location, some value⟩ }
    return .next
  | .read target key span => do
    let location := m.location span
    let object ← target.resolve location
    notify o (.read ⟨object, key⟩ (some location))
    return .next
  | .enumerate target span => do
    let location := m.location span
    let object ← target.resolve location
    notify o (.enumerate object (some location))
    return .next
  | .allocate => do
    modify Run.allocate
    return .next
  | .call callee span => do
    match ← invoke callee (m.location span) with
    | .threw a => return .threw a
    | .returned _ | .next => return .next
  | .register target shape span => do
    notify o (.register ⟨target, shape, none, some (m.location span)⟩)
    return .next
  | .assignGlobal name span => do
    announce o ⟨.assignedGlobal name, some (m.location span)⟩
    return .next
  | .throw span => return .threw ⟨some (m.location span)⟩
  | .mayThrow span => do
    modify fun r => { r with mayThrow := r.mayThrow <|> some ⟨some (m.location span)⟩ }
    return .next
  | .return value => return .returned value

/-- Goes on with `rest` if `first` ran to its end. -/
def Flow.andThen (first rest : Eval σ Flow) : Eval σ Flow := fun r =>
  match first r with
  | .ok .next r => rest r
  | other => other

/-- Runs `block` up to `times` times, until it does not run to its end. -/
def Flow.iterate (block : Eval σ Flow) : Nat → Eval σ Flow
  | 0, r => .ok .next r
  | times + 1, r =>
    match block r with
    | .ok .next r => Flow.iterate block times r
    | other => other

/-- Reads a binding and tells whether it holds `value` now. -/
def Target.holds (m : Model) (o : Observer σ) (target : Target) (key : Key) (value : Value)
    (span : Span) : Eval σ Bool := do
  let location := m.location span
  let object ← target.resolve location
  let b : Binding := ⟨object, key⟩
  notify o (.read b (some location))
  return (← get).current? m.heap b == some value

/-- Runs a body until it ends, returns or throws. -/
def Body.run (m : Model) (o : Observer σ) (invoke : CallableId → Location → Eval σ Flow) :
    Body → Eval σ Flow
  | .done => pure .next
  | .op first rest => Flow.andThen (first.run m o invoke) (rest.run m o invoke)
  | .loop times block rest =>
    Flow.andThen (Flow.iterate (block.run m o invoke) times) (rest.run m o invoke)
  | .ifEquals target key value span block rest => do
    if ← target.holds m o key value span then
      Flow.andThen (block.run m o invoke) (rest.run m o invoke)
    else
      rest.run m o invoke

/-- Runs the body of `f` with objects of its own. The observer sees when it starts and, on every exit, when
it stops. -/
def framed (o : Observer σ) (f : CallableId) (body : Eval σ Flow) : Eval σ Flow := fun r =>
  let leave (s : Run σ) : Run σ := { s.observe o (.exit f) with locals := r.locals }
  match body { r.observe o (.enter f) with locals := #[] } with
  | .ok flow s => .ok flow (leave s)
  | .error e s => .error e (leave s)

/-- Calls a function from `location`. The number is how many calls may be open at once from here on. -/
def invoke (m : Model) (o : Observer σ) : Nat → CallableId → Location → Eval σ Flow
  | 0, _, location => throw (.callTooDeep maxCallDepth location)
  | calls + 1, f, location =>
    match m.function? f with
    | none => throw (.unknownFunction f location)
    | some function => framed o f (function.body.run m o (invoke m o calls))

namespace Model

/-- The model after a run: the heap is untouched, the objects handed out stay handed out. -/
def afterRun (m : Model) (r : Run σ) : Model :=
  { m with nextObject := r.nextObject, evaluations := m.evaluations + 1 }

/-- Evaluates a call against the heap without changing it. -/
def evaluate (o : Observer σ) (call : Call) : EStateM EvalError (σ × Model) Effects := fun (s, m) =>
  match invoke m o (maxCallDepth + 1) call.callee call.location (.start s m.nextObject) with
  | .ok flow r => .ok (r.effects flow) (r.observer, m.afterRun r)
  | .error e r => .error e (r.observer, m.afterRun r)

end Model

end Independence
