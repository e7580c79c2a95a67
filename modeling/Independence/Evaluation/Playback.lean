import Independence.Evaluation.Evaluator
/-!
# Prepared evaluations

An evaluator that runs no code: for each callable it plays back prepared evaluations, one after the other,
and keeps a log of what was asked of it. Commits change nothing but the log.
-/

namespace Independence

/-- A property name, or a key that may have none. -/
inductive KeyName where
  | name (text : String)
  | key (k : Key)
deriving DecidableEq, Repr

/-- The key of a name, which becomes interned now. -/
def Symbols.resolve (s : Symbols) : KeyName → Key × Symbols
  | .name text => s.intern text
  | .key k => (k, s)

/-- A write whose key is resolved when the write is played. -/
structure NamedWrite where
  object : ObjectId
  key : KeyName
  site : WriteSite
deriving Repr

def Symbols.resolveWrites (s : Symbols) : List NamedWrite → List (Binding × WriteSite) × Symbols
  | [] => ([], s)
  | w :: writes =>
    let (key, s) := s.resolve w.key
    let (sites, s) := s.resolveWrites writes
    ((⟨w.object, key⟩, w.site) :: sites, s)

/-- Effects put together by hand, with the names of their keys. -/
structure NamedEffects where
  result : Completion
  created : List ObjectId
  writes : List NamedWrite
deriving Repr

def NamedEffects.resolve (e : NamedEffects) (s : Symbols) : Effects × Symbols :=
  let (writes, s) := s.resolveWrites e.writes
  (.ofLists e.result e.created writes, s)

namespace Playback

inductive Step where
  | assignGlobal (name : String) (location : Option Location)
  | write (o : ObjectId) (key : KeyName) (location : Option Location)
  | read (o : ObjectId) (key : KeyName) (location : Option Location)
  | enumerate (o : ObjectId) (location : Option Location)
  | enter (f : CallableId)
  | exit (f : CallableId)
  | register (r : Request)
deriving Repr

/-- The event of a step. Its key is interned now. -/
def Step.event (s : Symbols) : Step → Event × Symbols
  | .assignGlobal name location => (.sideEffect ⟨.assignedGlobal name, location⟩, s)
  | .write o key location =>
    let (key, s) := s.resolve key
    (.sideEffect ⟨.wroteProperty ⟨o, key⟩, location⟩, s)
  | .read o key location =>
    let (key, s) := s.resolve key
    (.read ⟨o, key⟩ location, s)
  | .enumerate o location => (.enumerate o location, s)
  | .enter f => (.enter f, s)
  | .exit f => (.exit f, s)
  | .register r => (.register r, s)

/-- One prepared evaluation: its steps, whether it goes on when a side effect is answered with an abort, and
how it ends. -/
structure Take where
  steps : List Step
  ignoreAbort : Bool
  ending : Except EvalError NamedEffects

structure Part where
  signature : Signature
  takes : List Take

/-- What was asked of the evaluator. A commit is logged with the property names known then. -/
inductive Entry where
  | evaluated (c : Call)
  | committed (e : Effects) (names : Symbols)
  | undone

end Playback

/-- An evaluator that plays back prepared evaluations. -/
structure Playback where
  parts : List (Option Playback.Part)
  roots : List (ObjectId × CallableId)
  symbols : Symbols
  played : List CallableId
  /-- What was asked since the log was last read, in order. -/
  log : Array Playback.Entry

namespace Playback

variable {σ : Type}

/-- A playback from its start. Of several roots for one object the last counts. -/
def new (parts : List (Option Part)) (roots : List (ObjectId × CallableId)) : Playback :=
  ⟨parts, roots.reverse, .empty, [], #[]⟩

def part? (p : Playback) (f : CallableId) : Option Part := p.parts[f.index]?.join

/-- Shows the steps to the observer until one is answered with an abort that counts. -/
def play (o : Observer σ) (ignoreAbort : Bool) : List Step → EStateM EvalError (σ × Symbols) Unit
  | [], s => .ok () s
  | step :: steps, (t, symbols) =>
    let (event, symbols) := step.event symbols
    let (decision, t) := o.answer event t
    match event, decision with
    | .sideEffect _, .abort =>
      if ignoreAbort then play o ignoreAbort steps (t, symbols) else .error .aborted (t, symbols)
    | _, _ => play o ignoreAbort steps (t, symbols)

def Take.run (o : Observer σ) (take : Take) : EStateM EvalError (σ × Symbols) Effects := fun s =>
  match play o take.ignoreAbort take.steps s with
  | .error e s => .error e s
  | .ok () (t, symbols) =>
    match take.ending with
    | .error e => .error e (t, symbols)
    | .ok effects =>
      let (effects, symbols) := effects.resolve symbols
      .ok effects (t, symbols)

/-- The evaluation to play for `f` now. The last one prepared is played again and again. -/
def take? (p : Playback) (f : CallableId) : Option Take :=
  (p.part? f).bind fun part => part.takes[min (p.played.count f) (part.takes.length - 1)]?

/-- Plays the next evaluation of the callee. Without one it does nothing. -/
def evaluate (o : Observer σ) (call : Call) : EStateM EvalError (σ × Playback) Effects := fun (t, p) =>
  let after (s : Symbols) : Playback :=
    { p with symbols := s, played := call.callee :: p.played, log := p.log.push (.evaluated call) }
  match p.take? call.callee with
  | none => .ok (.pure .undefined) (t, after p.symbols)
  | some take =>
    match take.run o (t, p.symbols) with
    | .ok effects (t, s) => .ok effects (t, after s)
    | .error e (t, s) => .error e (t, after s)

instance : Evaluator Playback where
  signature? p f := (p.part? f).map (·.signature)
  compositeRoot? p o := p.roots.lookup o
  evaluate := evaluate
  Undo := Unit
  commit e p := ({ p with log := p.log.push (.committed e p.symbols) }, ())
  rollback p _ := { p with log := p.log.push .undone }

def takeLog (p : Playback) : List Entry × Playback := (p.log.toList, { p with log := #[] })

end Playback

end Independence
