import Independence.Proofs.Evaluation.Recording
import Independence.Proofs.Evaluation.ScopedCommit
/-!
# Direct execution

To execute a call directly is to change the heap as the code says: every write is stored at once, a new object is added
to the heap, and a branch looks at the heap alone. An evaluation collects writes instead and leaves the heap as it is.
The two take the same course, and to commit what was collected makes of the one heap what the execution made of it.
-/

namespace Independence

variable {σ α β : Type} {m : Model} {o : Observer σ}

/-! ## Executions -/

/-- The state of an execution: that of a run, but for a heap in place of the writes collected. -/
structure Execution (σ : Type) where
  observer : σ
  nextObject : Nat
  created : ObjectSet
  heap : Heap
  mayThrow : Option Abrupt
  locals : Array ObjectId

/-- A computation of an execution in progress. -/
abbrev Exec (σ α : Type) := EStateM EvalError (Execution σ) α

namespace Execution

def start (observer : σ) (m : Model) : Execution σ := ⟨observer, m.nextObject, ∅, m.heap, none, #[]⟩

def observe (o : Observer σ) (e : Event) (x : Execution σ) : Execution σ :=
  { x with observer := (o.answer e x.observer).2 }

/-- A new object is added to the heap, unless the heap knows it already. -/
def allocate (x : Execution σ) : Execution σ :=
  let object : ObjectId := ⟨x.nextObject⟩
  { x with
    nextObject := x.nextObject + 1
    created := x.created.insert object
    heap := if x.heap.knows object then x.heap else x.heap.addObject object
    locals := x.locals.push object }

/-- Stores a write in the heap. -/
def store (b : Binding) (v : Value) (x : Execution σ) : Execution σ := { x with heap := x.heap.put b (some v) }

/-- How the execution ended, if its body ended with `flow`. -/
def completion (x : Execution σ) : Flow → Completion
  | .threw a => .abrupt a
  | .returned v => (x.mayThrow.map (Completion.possiblyAbrupt v)).getD (.normal v)
  | .next => (x.mayThrow.map (Completion.possiblyAbrupt .undefined)).getD (.normal .undefined)

end Execution

namespace Exec

def notify (o : Observer σ) (e : Event) : Exec σ Unit := modify (Execution.observe o e)

/-- Lets the observer see a side effect, and stops if it answers with an abort. -/
def announce (o : Observer σ) (e : SideEffect) : Exec σ Unit := do
  let decision := (o.answer (.sideEffect e) (← get).observer).1
  notify o (.sideEffect e)
  if decision = .abort then throw .aborted

/-- Announces a write, unless the execution created the object itself. -/
def announceWrite (o : Observer σ) (b : Binding) (location : Location) : Exec σ Unit := do
  unless (← get).created.contains b.object do
    announce o ⟨.wroteProperty b, some location⟩

/-- The object that a target stands for in the running function. -/
def resolve (location : Location) : Target → Exec σ ObjectId
  | .object o => pure o
  | .allocated n => do
    match (← get).locals[n]? with
    | some o => pure o
    | none => throw (.notAllocated n location)

/-- Goes on with `rest` if `first` ran to its end. -/
def andThen (first rest : Exec σ Flow) : Exec σ Flow := do
  match ← first with
  | .next => rest
  | .returned v => return .returned v
  | .threw a => return .threw a

/-- Runs `block` up to `times` times, until it does not run to its end. -/
def iterate (block : Exec σ Flow) : Nat → Exec σ Flow
  | 0 => return .next
  | times + 1 => andThen block (iterate block times)

/-- Runs a body with objects of its own. The observer sees when it starts and, on every exit, when it stops. -/
def framed (o : Observer σ) (f : CallableId) (body : Exec σ Flow) : Exec σ Flow := fun x =>
  let leave (y : Execution σ) : Execution σ := { y.observe o (.exit f) with locals := x.locals }
  match body { x.observe o (.enter f) with locals := #[] } with
  | .ok flow y => .ok flow (leave y)
  | .error e y => .error e (leave y)

end Exec

/-- Executes one operation. Calls go to `call`. -/
def Op.execute (m : Model) (o : Observer σ) (call : CallableId → Location → Exec σ Flow) : Op → Exec σ Flow
  | .write target key value span => do
    let object ← Exec.resolve (m.location span) target
    Exec.announceWrite o ⟨object, key⟩ (m.location span)
    modify (Execution.store ⟨object, key⟩ value)
    return .next
  | .read target key span => do
    let object ← Exec.resolve (m.location span) target
    Exec.notify o (.read ⟨object, key⟩ (some (m.location span)))
    return .next
  | .enumerate target span => do
    let object ← Exec.resolve (m.location span) target
    Exec.notify o (.enumerate object (some (m.location span)))
    return .next
  | .allocate => do
    modify Execution.allocate
    return .next
  | .call callee span => do
    match ← call callee (m.location span) with
    | .threw a => return .threw a
    | .returned _ | .next => return .next
  | .register target shape span => do
    Exec.notify o (.register ⟨target, shape, none, some (m.location span)⟩)
    return .next
  | .assignGlobal name span => do
    Exec.announce o ⟨.assignedGlobal name, some (m.location span)⟩
    return .next
  | .throw span => return .threw ⟨some (m.location span)⟩
  | .mayThrow span => do
    modify fun x => { x with mayThrow := x.mayThrow <|> some ⟨some (m.location span)⟩ }
    return .next
  | .return value => return .returned value

/-- Reads a binding and tells whether the heap holds `value` there. -/
def Target.holdsNow (m : Model) (o : Observer σ) (target : Target) (key : Key) (value : Value) (span : Span) :
    Exec σ Bool := do
  let object ← Exec.resolve (m.location span) target
  Exec.notify o (.read ⟨object, key⟩ (some (m.location span)))
  return (← get).heap.get? ⟨object, key⟩ == some value

/-- Executes a body until it ends, returns or throws. -/
def Body.execute (m : Model) (o : Observer σ) (call : CallableId → Location → Exec σ Flow) : Body → Exec σ Flow
  | .done => return .next
  | .op first rest => Exec.andThen (first.execute m o call) (rest.execute m o call)
  | .loop times block rest => Exec.andThen (Exec.iterate (block.execute m o call) times) (rest.execute m o call)
  | .ifEquals target key value span block rest => do
    if ← target.holdsNow m o key value span then
      Exec.andThen (block.execute m o call) (rest.execute m o call)
    else
      rest.execute m o call

/-- Executes a call from `location`. The number is how many calls may be open at once from here on. -/
def Exec.call (m : Model) (o : Observer σ) : Nat → CallableId → Location → Exec σ Flow
  | 0, _, location => throw (.callTooDeep maxCallDepth location)
  | calls + 1, f, location =>
    match m.function? f with
    | none => throw (.unknownFunction f location)
    | some function => Exec.framed o f (function.body.execute m o (Exec.call m o calls))

/-- Executes a call on the model, and tells how it ended and which objects it allocated. -/
def Model.execute (o : Observer σ) (call : Call) : EStateM EvalError (σ × Model) (Completion × ObjectSet) :=
  fun (s, m) =>
    let after (x : Execution σ) : σ × Model :=
      (x.observer, { m with heap := x.heap, nextObject := x.nextObject, evaluations := m.evaluations + 1 })
    match Exec.call m o (maxCallDepth + 1) call.callee call.location (.start s m) with
    | .ok flow x => .ok (x.completion flow, x.created) (after x)
    | .error e x => .error e (after x)

/-! ## Evaluations mirrored by executions -/

/-- The execution is where the run is, and its heap holds what the run would read. -/
structure Run.MirroredBy (m : Model) (r : Run σ) (x : Execution σ) : Prop where
  observer : x.observer = r.observer
  nextObject : x.nextObject = r.nextObject
  created : x.created = r.created
  heap : ∀ b, x.heap.get? b = r.current? m.heap b
  mayThrow : x.mayThrow = r.mayThrow
  locals : x.locals = r.locals

/-- `y` executes what `x` evaluates: with the same result, and mirrored from there on. -/
def Mirrors (m : Model) (x : Eval σ α) (y : Exec σ α) : Prop :=
  ∀ r t, r.MirroredBy m t → ∃ t', (finalState (x r)).MirroredBy m t' ∧ y t = mapOutcome id (fun _ => t') (x r)

namespace Mirrors

theorem pure (a : α) : Mirrors m (pure a : Eval σ α) (pure a : Exec σ α) := fun _ t ht => ⟨t, ht, rfl⟩

theorem throw (e : EvalError) : Mirrors m (throw e : Eval σ α) (throw e : Exec σ α) := fun _ t ht => ⟨t, ht, rfl⟩

theorem modify {f : Run σ → Run σ} {g : Execution σ → Execution σ}
    (h : ∀ r t, r.MirroredBy m t → (f r).MirroredBy m (g t)) :
    Mirrors m (modify f : Eval σ Unit) (modify g : Exec σ Unit) := fun r t ht => ⟨g t, h r t ht, rfl⟩

theorem bind {x : Eval σ α} {y : Exec σ α} {k : α → Eval σ β} {l : α → Exec σ β} (hx : Mirrors m x y)
    (hk : ∀ a, Mirrors m (k a) (l a)) : Mirrors m (x >>= k) (y >>= l) := by
  intro r t ht
  obtain ⟨t', ht', hy⟩ := hx r t ht
  simp only [Bind.bind, EStateM.bind, hy]
  cases hr : x r with
  | error e s =>
    rw [hr] at ht'
    exact ⟨t', ht', rfl⟩
  | ok a s =>
    rw [hr] at ht'
    exact hk a s t' ht'

theorem andThen {x x' : Eval σ Flow} {y y' : Exec σ Flow} (hx : Mirrors m x y) (hx' : Mirrors m x' y') :
    Mirrors m (Flow.andThen x x') (Exec.andThen y y') := by
  rw [Flow.andThen_eq]
  refine bind hx fun flow => ?_
  cases flow with
  | next => exact hx'
  | returned v => exact pure _
  | threw a => exact pure _

theorem iterate {x : Eval σ Flow} {y : Exec σ Flow} (hx : Mirrors m x y) (n : Nat) :
    Mirrors m (Flow.iterate x n) (Exec.iterate y n) := by
  induction n with
  | zero => exact pure Flow.next
  | succ n ih =>
    rw [Flow.iterate_succ]
    exact andThen hx ih

end Mirrors

/-! ## Primitive steps -/

theorem Run.MirroredBy.observe {r : Run σ} {x : Execution σ} (h : r.MirroredBy m x) (e : Event) :
    (r.observe o e).MirroredBy m (x.observe o e) where
  observer := by simp only [Run.observe, Execution.observe, h.observer]
  nextObject := h.nextObject
  created := h.created
  heap := h.heap
  mayThrow := h.mayThrow
  locals := h.locals

/-- A stored write is what the run would read from now on. -/
theorem Run.MirroredBy.store {r : Run σ} {x : Execution σ} (h : r.MirroredBy m x) (b : Binding) (l : Location)
    (v : Value) : Run.MirroredBy m { r with writes := r.writes.insert b ⟨some l, some v⟩ } (x.store b v) where
  observer := h.observer
  nextObject := h.nextObject
  created := h.created
  mayThrow := h.mayThrow
  locals := h.locals
  heap c := by
    have hc := h.heap c
    simp only [Execution.store, Heap.get?_put, Run.current?, Std.ExtTreeMap.getElem?_insert,
      Std.compare_eq_iff_eq] at hc ⊢
    by_cases hb : b = c
    · simp [hb]
    · simp [hb, Ne.symm hb, hc]

/-- A new object has no properties but those that the heap had for its number before. -/
theorem Run.MirroredBy.allocate {r : Run σ} {x : Execution σ} (h : r.MirroredBy m x) :
    r.allocate.MirroredBy m x.allocate where
  observer := h.observer
  nextObject := by simp only [Run.allocate, Execution.allocate, h.nextObject]
  created := by simp only [Run.allocate, Execution.allocate, h.created, h.nextObject]
  mayThrow := h.mayThrow
  locals := by simp only [Run.allocate, Execution.allocate, h.locals, h.nextObject]
  heap b := by
    have hb : r.allocate.current? m.heap b = r.current? m.heap b := rfl
    rw [hb, ← h.heap b]
    simp only [Execution.allocate]
    cases hk : x.heap.knows ⟨x.nextObject⟩ with
    | true => simp
    | false => exact Heap.get?_addObject_of_not_knows _ _ _ hk

namespace Mirrors

theorem notify (e : Event) : Mirrors m (notify o e) (Exec.notify o e) := modify fun _ _ h => h.observe e

theorem announce (e : SideEffect) : Mirrors m (announce o e) (Exec.announce o e) := by
  intro r t ht
  refine ⟨t.observe o (.sideEffect e), ?_, ?_⟩
  · rw [finalState_announce]
    exact ht.observe (.sideEffect e)
  · simp only [Exec.announce, Independence.announce, Bind.bind, EStateM.bind, get_apply, Exec.notify, modify_apply,
      ht.observer]
    cases (o.answer (.sideEffect e) r.observer).1 <;> rfl

theorem announceWrite (b : Binding) (l : Location) :
    Mirrors m (announceWrite o b l) (Exec.announceWrite o b l) := by
  intro r t ht
  simp only [Independence.announceWrite, Exec.announceWrite, Bind.bind, EStateM.bind, get_apply, ht.created]
  cases r.created.contains b.object with
  | true => exact ⟨t, ht, rfl⟩
  | false => exact announce _ r t ht

theorem resolve (t : Target) (l : Location) : Mirrors m (t.resolve l) (Exec.resolve (σ := σ) l t) := by
  cases t with
  | object a => exact pure a
  | allocated n =>
    intro r x hx
    refine ⟨x, ?_, ?_⟩
    · rw [Target.resolve_allocated]
      cases r.locals[n]? <;> exact hx
    · rw [Target.resolve_allocated]
      simp only [Exec.resolve, Bind.bind, EStateM.bind, get_apply, hx.locals]
      cases r.locals[n]? <;> rfl

theorem holds (t : Target) (k : Key) (v : Value) (s : Span) :
    Mirrors m (t.holds m o k v s) (t.holdsNow m o k v s) := by
  refine bind (resolve t _) fun a => bind (notify _) fun _ => ?_
  intro r x hx
  refine ⟨x, hx, ?_⟩
  simp only [Bind.bind, EStateM.bind, get_apply, hx.heap]
  rfl

/-! ## Programs -/

variable {run : CallableId → Location → Eval σ Flow} {call : CallableId → Location → Exec σ Flow}

theorem op (hcall : ∀ c l, Mirrors m (run c l) (call c l)) (op : Op) :
    Mirrors m (op.run m o run) (op.execute m o call) := by
  cases op with
  | write t k v s =>
    rw [Op.run_write]
    refine bind (resolve t _) fun a => bind (announceWrite ⟨a, k⟩ _) fun _ => ?_
    exact bind (modify fun _ _ h => h.store ⟨a, k⟩ _ v) fun _ => pure _
  | read t k s => exact bind (resolve t _) fun a => bind (notify _) fun _ => pure _
  | enumerate t s => exact bind (resolve t _) fun a => bind (notify _) fun _ => pure _
  | allocate => exact bind (modify fun _ _ h => h.allocate) fun _ => pure _
  | call c s =>
    refine bind (hcall c _) fun flow => ?_
    cases flow <;> exact pure _
  | register v shape s => exact bind (notify _) fun _ => pure _
  | assignGlobal name s => exact bind (announce _) fun _ => pure _
  | throw s => exact pure _
  | mayThrow s =>
    refine bind (modify fun _ _ h => ?_) fun _ => pure _
    exact ⟨h.observer, h.nextObject, h.created, h.heap, congrArg (· <|> _) h.mayThrow, h.locals⟩
  | «return» v => exact pure _

theorem body (hcall : ∀ c l, Mirrors m (run c l) (call c l)) (b : Body) :
    Mirrors m (b.run m o run) (b.execute m o call) := by
  induction b with
  | done => exact pure Flow.next
  | op first rest ih => exact andThen (op hcall first) ih
  | loop times block rest ihb ihr => exact andThen (iterate ihb times) ihr
  | ifEquals t k v s block rest ihb ihr =>
    refine bind (holds t k v s) fun c => ?_
    cases c with
    | true => exact andThen ihb ihr
    | false => exact ihr

theorem framed (f : CallableId) {x : Eval σ Flow} {y : Exec σ Flow} (hx : Mirrors m x y) :
    Mirrors m (framed o f x) (Exec.framed o f y) := by
  intro r t ht
  have henter : Run.MirroredBy m { r.observe o (.enter f) with locals := #[] }
      { t.observe o (.enter f) with locals := #[] } :=
    have h := ht.observe (.enter f)
    ⟨h.observer, h.nextObject, h.created, h.heap, h.mayThrow, rfl⟩
  obtain ⟨t', ht', hy⟩ := hx _ _ henter
  have hleave : ∀ s : Run σ, s.MirroredBy m t' → Run.MirroredBy m { s.observe o (.exit f) with locals := r.locals }
      { t'.observe o (.exit f) with locals := t.locals } := fun s hs =>
    have h := hs.observe (.exit f)
    ⟨h.observer, h.nextObject, h.created, h.heap, h.mayThrow, ht.locals⟩
  simp only [Independence.framed, Exec.framed, hy]
  cases hb : x { r.observe o (.enter f) with locals := #[] }
  all_goals
    rw [hb] at ht'
    exact ⟨_, hleave _ ht', rfl⟩

/-- A call is executed as it is evaluated. -/
theorem invoke (calls : Nat) (c : CallableId) (l : Location) :
    Mirrors m (invoke m o calls c l) (Exec.call m o calls c l) := by
  induction calls generalizing c l with
  | zero => exact throw _
  | succ calls ih =>
    simp only [Independence.invoke, Exec.call]
    cases m.function? c with
    | none => exact throw _
    | some g => exact framed c (body ih g.body)

end Mirrors

theorem Run.mirroredBy_start (s : σ) (m : Model) : (Run.start s m.nextObject).MirroredBy m (.start s m) where
  observer := rfl
  nextObject := rfl
  created := rfl
  heap b := by simp [Execution.start, Run.start, Run.current?]
  mayThrow := rfl
  locals := rfl

theorem Run.MirroredBy.completion {r : Run σ} {x : Execution σ} (h : r.MirroredBy m x) (flow : Flow) :
    x.completion flow = r.completion flow := by
  cases flow <;> simp only [Execution.completion, Run.completion, h.mayThrow] <;> cases r.mayThrow <;> rfl

/-! ## Evaluation and commit -/

/-- Where an evaluation returns effects, the execution of the same call on the same model shows the observer the same
events in the same order, allocates the same objects and ends the same way. Its heap holds then what is read while the
effects are committed. Nothing is asked of the observer but that it did not abort the evaluation. -/
theorem Model.execute_is_evaluate_and_commit {call : Call} {s t : σ} {m' : Model} {e : Effects}
    (h : Model.evaluate o call (s, m) = .ok e (t, m')) : ∃ (events : Array Event) (after : Model),
      Model.evaluate o.recording call ((s, #[]), m) = .ok e ((t, events), m') ∧
      Model.execute o.recording call ((s, #[]), m) = .ok (e.result, e.created) ((t, events), after) ∧
      (∃ heap, after = { m' with heap }) ∧
      ∀ b, after.get? b = (Evaluator.within e (fun inside => (inside.get? b, inside)) m').1 := by
  rw [Model.evaluate_recording o call s #[] m] at h
  cases hrec : Model.evaluate o.recording call ((s, #[]), m) with
  | error x p =>
    rw [hrec] at h
    cases h
  | ok e' p =>
    rw [hrec] at h
    cases h
    obtain ⟨x, hx, hcall⟩ := Mirrors.invoke (o := o.recording) (maxCallDepth + 1) call.callee call.location _ _
      (Run.mirroredBy_start (s, #[]) m)
    simp only [Model.evaluate] at hrec
    cases hi : invoke m o.recording (maxCallDepth + 1) call.callee call.location (.start (s, #[]) m.nextObject) with
    | error y r =>
      rw [hi] at hrec
      cases hrec
    | ok flow r =>
      rw [hi] at hrec hcall hx
      cases hrec
      have hx : r.MirroredBy m x := hx
      refine ⟨r.observer.2, { m.afterRun r with heap := x.heap }, rfl, ?_, ⟨x.heap, rfl⟩, fun b => ?_⟩
      · simp only [Model.execute, hcall, mapOutcome, id_eq, hx.completion, hx.created, hx.observer, hx.nextObject]
        rfl
      · refine (hx.heap b).trans ?_
        rw [Evaluator.fst_within, Model.get?_inside]
        rfl

/-- The first function of the sample calls the second one twice. The object that it allocates is the only new one. -/
theorem Model.execute_is_evaluate_and_commit_calling : ∃ (e : Effects) (m' : Model) (events : Array Event)
    (after : Model),
    Model.evaluate .silent (calling.callOf ⟨0⟩) ((), calling) = .ok e ((), m') ∧ e.created.toList = [⟨1⟩] ∧
      Model.execute Observer.silent.recording (calling.callOf ⟨0⟩) (((), #[]), calling) =
        .ok (e.result, e.created) (((), events), after) ∧
      ∀ b, after.get? b = (Evaluator.within e (fun inside => (inside.get? b, inside)) m').1 := by
  obtain ⟨e, ⟨⟨⟩, m'⟩, he, hcreated⟩ := exists_ok
    (x := Model.evaluate .silent (calling.callOf ⟨0⟩) ((), calling))
    (fun e _ => e.created.toList == [⟨1⟩]) (by decide +kernel)
  obtain ⟨events, after, -, hexecute, -, hafter⟩ := execute_is_evaluate_and_commit he
  exact ⟨e, m', events, after, he, by simpa using hcreated, hexecute, hafter⟩

end Independence
