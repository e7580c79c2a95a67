import Independence.Program.Signature
/-!
# Events and observers

An evaluation tells its observer everything it does that others may care about, in order. Each event is
answered, and the answer to a side effect decides whether the evaluation goes on. An observer is a function
on a state of its own choosing.
-/

namespace Independence

inductive Decision where
  | proceed
  | abort
deriving DecidableEq, Repr

/-- A mutation that can be seen from outside the evaluation. -/
inductive SideEffectKind where
  /-- A variable outside the evaluated code was assigned. -/
  | assignedGlobal (name : String)
  /-- A property of an object from before the evaluation was written. -/
  | wroteProperty (b : Binding)
deriving DecidableEq, Repr

structure SideEffect where
  kind : SideEffectKind
  location : Option Location
deriving DecidableEq, Repr

def SideEffectKind.text : SideEffectKind → String
  | assignedGlobal name => s!"modifies binding `{name}` which exists outside the optimized function"
  | wroteProperty b =>
    s!"modifies a property of {b.object.text} which exists outside the optimized function"

/-- One step of an evaluation that an observer sees. -/
inductive Event where
  | sideEffect (e : SideEffect)
  | register (r : Request)
  | read (b : Binding) (location : Option Location)
  | enumerate (o : ObjectId) (location : Option Location)
  /-- The body of a callable starts running, that of the evaluated call included. -/
  | enter (f : CallableId)
  /-- The body entered last stops running, for whatever reason. -/
  | exit (f : CallableId)
deriving Repr

/-- Sees each event and answers it. Only the answer to a side effect matters. -/
structure Observer (σ : Type) where
  answer : Event → σ → Decision × σ

namespace Observer

variable {σ : Type}

/-- Sees nothing and lets everything pass. -/
def silent : Observer Unit := ⟨fun _ s => (.proceed, s)⟩

/-- Aborts at the side effect with number `n`, counted from 0, and lets everything else pass. The state is the
number of side effects so far. -/
def abortAt (n : Option Nat) : Observer Nat where
  answer
    | .sideEffect _, count => (if n = some count then .abort else .proceed, count + 1)
    | _, count => (.proceed, count)

/-- Answers as `o` does and keeps the events in order of occurrence. -/
def recording (o : Observer σ) : Observer (σ × Array Event) where
  answer e s :=
    let (decision, t) := o.answer e s.1
    (decision, t, s.2.push e)

end Observer

inductive EvalError where
  | aborted
  | callTooDeep (limit : Nat) (location : Location)
  | unknownFunction (f : CallableId) (location : Location)
  /-- The running function has not allocated that many objects. -/
  | notAllocated (n : Nat) (location : Location)
  /-- The evaluator gave a reason of its own. -/
  | refused (reason : String) (location : Option Location)
deriving DecidableEq, Repr

namespace EvalError

def message : EvalError → String
  | aborted => "evaluation aborted by the diagnostics sink"
  | callTooDeep limit _ => s!"call depth exceeds {limit}"
  | unknownFunction f _ => s!"call of unknown function {f.text}"
  | notAllocated n _ => s!"no object allocated at index {n}"
  | refused reason _ => reason

def location? : EvalError → Option Location
  | aborted => none
  | callTooDeep _ l | unknownFunction _ l | notAllocated _ l => some l
  | refused _ l => l

end EvalError

end Independence
