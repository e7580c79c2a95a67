import Independence.Proofs.Evaluation.Recording
/-!
# Chronicles

A chronicle of an evaluation has, in order, each operation, loop and condition that the evaluation reaches and each
event that its observer sees, every one with the callables whose bodies are running then. The callables are passed down
from call to call and not read off the events. To keep a chronicle changes nothing about an evaluation, on any exit.
-/

namespace Independence

variable {σ : Type} {m : Model} {o : Observer σ}

/-! ## Evaluation with a chronicle -/

namespace Chronicle

/-- Something that happens in an evaluation. -/
inductive Step where
  | op (op : Op)
  | loop (times : Nat)
  | branch (target : Target) (key : Key) (value : Value) (span : Span)
  | event (e : Event)

/-- A step, and the callables whose bodies are running then, innermost first. A body runs from the event of its start to
that of its end, both included. -/
structure Entry where
  step : Step
  calls : List CallableId

def Step.event? : Step → Option Event
  | .event e => some e
  | .op _ | .loop _ | .branch _ _ _ _ => none

end Chronicle

/-- What happens in an evaluation, in order. -/
abbrev Chronicle := List Chronicle.Entry

namespace Chronicle

/-- Notes that a step is reached. -/
def note (step : Step) (calls : List CallableId) : Eval (σ × Chronicle) Unit :=
  modify fun r => { r with observer := (r.observer.1, r.observer.2 ++ [⟨step, calls⟩]) }

/-- The events that the observer sees, in order. -/
def told (c : Chronicle) : List Event := c.filterMap (·.step.event?)

@[simp] theorem told_nil : told [] = [] := rfl

theorem told_cons (x : Entry) (c : Chronicle) : told (x :: c) = x.step.event?.toList ++ told c := by
  cases h : x.step.event? <;> simp [told, h]

@[simp] theorem told_append (c d : Chronicle) : told (c ++ d) = told c ++ told d := List.filterMap_append

end Chronicle

open Chronicle (note told)

/-- Answers as `o` does and adds the events to a chronicle, while the bodies of `calls` are running. -/
def Observer.chronicling (o : Observer σ) (calls : List CallableId) : Observer (σ × Chronicle) where
  answer e s :=
    let (decision, t) := o.answer e s.1
    (decision, t, s.2 ++ [⟨.event e, calls⟩])

/-- Runs a body while those of `calls` are running, its own the innermost, and notes each step when it is reached. -/
def Body.chronicle (m : Model) (o : Observer σ) (calls : List CallableId)
    (invoke : CallableId → Location → Eval (σ × Chronicle) Flow) : Body → Eval (σ × Chronicle) Flow
  | .done => pure .next
  | .op first rest =>
    Flow.andThen (do note (.op first) calls; first.run m (o.chronicling calls) invoke)
      (rest.chronicle m o calls invoke)
  | .loop times block rest =>
    Flow.andThen (do note (.loop times) calls; Flow.iterate (block.chronicle m o calls invoke) times)
      (rest.chronicle m o calls invoke)
  | .ifEquals target key value span block rest => do
    note (.branch target key value span) calls
    if ← target.holds m (o.chronicling calls) key value span then
      Flow.andThen (block.chronicle m o calls invoke) (rest.chronicle m o calls invoke)
    else
      rest.chronicle m o calls invoke

/-- Calls a function while the bodies of `calls` are running. The number is how many more may be open at once. -/
def invokeChronicled (m : Model) (o : Observer σ) :
    Nat → List CallableId → CallableId → Location → Eval (σ × Chronicle) Flow
  | 0, _, _, location => throw (.callTooDeep maxCallDepth location)
  | more + 1, calls, f, location =>
    match m.function? f with
    | none => throw (.unknownFunction f location)
    | some function =>
      framed (o.chronicling (f :: calls)) f
        (function.body.chronicle m o (f :: calls) (invokeChronicled m o more (f :: calls)))

/-- Evaluates a call as `Model.evaluate` does and adds what happens to a chronicle. -/
def Model.chronicle (o : Observer σ) (call : Call) : EStateM EvalError ((σ × Chronicle) × Model) Effects :=
  fun (s, m) =>
    match invokeChronicled m o (maxCallDepth + 1) [] call.callee call.location (.start s m.nextObject) with
    | .ok flow r => .ok (r.effects flow) (r.observer, m.afterRun r)
    | .error e r => .error e (r.observer, m.afterRun r)

/-! ## Agreement -/

/-- A chronicle tells what a recording of the events would hold. -/
def Chronicle.recorded (s : σ × Chronicle) : σ × Array Event := (s.1, (told s.2).toArray)

open Chronicle (recorded)

theorem Observer.chronicling_determines (o : Observer σ) (calls : List CallableId) :
    (o.chronicling calls).Determines o.recording recorded := by
  intro e s
  simp [recording, chronicling, recorded, Chronicle.told_cons, Chronicle.Step.event?]

namespace Seen

/-- To note a step is not seen by the observer. -/
theorem note {x y : Eval _ Flow} {step : Chronicle.Step} (hstep : step.event? = none) {calls : List CallableId}
    (hx : Seen (recorded (σ := σ)) id x y) : Seen recorded id (do Chronicle.note step calls; x) y := by
  intro r
  refine Eq.trans ?_ (hx { r with observer := (r.observer.1, r.observer.2 ++ [⟨step, calls⟩]) })
  simp [Run.seenThrough, Run.watchedBy, recorded, Chronicle.told_cons, hstep]

variable {calls : List CallableId} {run : CallableId → Location → Eval (σ × Chronicle) Flow}
  {run' : CallableId → Location → Eval (σ × Array Event) Flow}

theorem chronicle (hrun : ∀ c l, Seen recorded id (run c l) (run' c l)) {b : Body}
    (hb : b.AllObjects fun a => id a = a) :
    Seen recorded id (b.chronicle m o calls run) (b.run m o.recording run') := by
  have S := Seen.simulation (o.chronicling_determines calls) m
  induction b with
  | done => exact fun _ => rfl
  | op first rest ih => exact S.andThen (note rfl (S.op rfl hrun hb.1)) (ih hb.2)
  | loop times block rest ihb ihr => exact S.andThen (note rfl (S.iterate (ihb hb.1) times)) (ihr hb.2)
  | ifEquals t k v s block rest ihb ihr =>
    obtain ⟨ht, hv, hblock, hrest⟩ := hb
    refine note rfl (S.bind (S.holds rfl ht hv k s) fun c => ?_)
    cases c with
    | true => exact S.andThen (ihb hblock) (ihr hrest)
    | false => exact ihr hrest

theorem invokeChronicled (more : Nat) (calls : List CallableId) (c : CallableId) (l : Location) :
    Seen recorded id (invokeChronicled m o more calls c l) (invoke m o.recording more c l) := by
  -- Each body has one caller more on top of it and one call less left.
  induction more generalizing calls c l with
  | zero => exact fun _ => rfl
  | succ more ih =>
    simp only [Independence.invokeChronicled, invoke]
    cases m.function? c with
    | none => exact fun _ => rfl
    | some g =>
      exact framed (o.chronicling_determines (c :: calls)) c
        (chronicle (ih (c :: calls)) (g.body.allObjects_of_forall fun _ => rfl))

end Seen

/-- An evaluation with a chronicle is the evaluation, however it ends, and the chronicle tells the events that the
observer saw. -/
theorem Model.evaluate_recording_chronicle (o : Observer σ) (call : Call) (s : σ) (log : Chronicle) (m : Model) :
    Model.evaluate o.recording call (recorded (s, log), m) =
      mapOutcome id (fun p => (recorded p.1, p.2)) (Model.chronicle o call ((s, log), m)) := by
  have hrun := Seen.invokeChronicled (m := m) (o := o) (maxCallDepth + 1) [] call.callee call.location
    (.start (s, log) m.nextObject)
  have hstart : (Run.start (s, log) m.nextObject).seenThrough recorded = .start (recorded (s, log)) m.nextObject := rfl
  rw [hstart] at hrun
  simp only [Model.evaluate, Model.chronicle, hrun]
  cases Independence.invokeChronicled m o (maxCallDepth + 1) [] call.callee call.location
    (.start (s, log) m.nextObject) <;> rfl

theorem Model.evaluate_chronicle (o : Observer σ) (call : Call) (s : σ) (log : Chronicle) (m : Model) :
    Model.evaluate o call (s, m) =
      mapOutcome id (fun p => (p.1.1, p.2)) (Model.chronicle o call ((s, log), m)) := by
  rw [Model.evaluate_recording o call s (told log).toArray m]
  have h := Model.evaluate_recording_chronicle o call s log m
  simp only [recorded] at h
  rw [h]
  cases Model.chronicle o call ((s, log), m) <;> rfl

/-- The observer is left where the events told by the chronicle lead it. -/
theorem Model.after_chronicle (o : Observer σ) (call : Call) (s : σ) (m : Model) :
    let x := Model.chronicle o call ((s, []), m)
    (finalState x).1.1 = o.after s (told (finalState x).1.2) := by
  have h := Model.observer_evaluate (o := o.recording) (I := fun p => p.1 = o.after s p.2.toList)
    (fun e p hp => by simp [Observer.recording, Observer.after_append, Observer.after_singleton, hp]) call
    (s := (s, #[])) rfl m
  have hagree := Model.evaluate_recording_chronicle o call s [] m
  simp only [recorded, Chronicle.told_nil] at hagree
  rw [hagree] at h
  cases hx : Model.chronicle o call ((s, []), m) <;>
    simpa [hx, mapOutcome, finalState, recorded] using h

end Independence
