import Independence.Proofs.Evaluation.Renaming
/-!
# Two evaluations in lockstep

An operation is a sequence of a few primitive steps: to find its object, to tell the observer, to store a write,
to allocate, to note a possible throw, to look at a binding. A relation between the computations of two
evaluations that the primitive steps satisfy, and that sequences and frames keep, holds of the two evaluations as
a whole. The two may number their objects differently.
-/

namespace Independence

variable {σ τ : Type} {m m' : Model} {o : Observer σ} {o' : Observer τ}

/-! ## Access to the state

What goals ask for once a sequence is unfolded at a state. -/

theorem get_apply {ε : Type} (s : τ) : (get : EStateM ε τ τ) s = .ok s s := rfl

theorem modify_apply {ε : Type} (f : τ → τ) (s : τ) : (modify f : EStateM ε τ PUnit) s = .ok ⟨⟩ (f s) := rfl

/-! ## Operations as sequences of primitive steps -/

/-- Announces a write, unless the run created the object itself. -/
def announceWrite (o : Observer σ) (b : Binding) (location : Location) : Eval σ Unit := fun r =>
  if r.created.contains b.object then .ok () r else announce o ⟨.wroteProperty b, some location⟩ r

/-- Collects a write. -/
def storeWrite (b : Binding) (site : WriteSite) : Eval σ Unit :=
  modify fun r => { r with writes := r.writes.insert b site }

/-- Notes a throw that happens on some paths only, if it is the first one. -/
def noteThrow (a : Abrupt) : Eval σ Unit :=
  modify fun r => { r with mayThrow := r.mayThrow <|> some a }

/-- Reads a binding and tells whether it holds `v` now. -/
def readIs (m : Model) (o : Observer σ) (b : Binding) (location : Location) (v : Value) : Eval σ Bool := do
  notify o (.read b (some location))
  return (← get).current? m.heap b == some v

/-- Finds the object of a write, and announces the write. -/
def openWrite (o : Observer σ) (t : Target) (k : Key) (location : Location) : Eval σ ObjectId := do
  let object ← t.resolve location
  announceWrite o ⟨object, k⟩ location
  return object

theorem Op.run_write (run : CallableId → Location → Eval σ Flow) (t : Target) (k : Key) (v : Value) (s : Span) :
    (Op.write t k v s).run m o run = (do
      let object ← t.resolve (m.location s)
      announceWrite o ⟨object, k⟩ (m.location s)
      storeWrite ⟨object, k⟩ ⟨some (m.location s), some v⟩
      return .next) := by
  simp only [Op.run]
  congr 1
  funext object r
  simp only [bind, EStateM.bind, get_apply, announceWrite]
  cases r.created.contains object <;> rfl

theorem Op.run_write_open (run : CallableId → Location → Eval σ Flow) (t : Target) (k : Key) (v : Value) (s : Span) :
    (Op.write t k v s).run m o run = (do
      let object ← openWrite o t k (m.location s)
      storeWrite ⟨object, k⟩ ⟨some (m.location s), some v⟩
      return .next) := by
  rw [Op.run_write]
  simp only [openWrite, bind_assoc, pure_bind]

theorem Target.resolve_allocated (n : Nat) (l : Location) (r : Run σ) :
    (Target.allocated n).resolve l r = match r.locals[n]? with
      | some a => .ok a r
      | none => .error (.notAllocated n l) r := by
  simp only [Target.resolve, bind, EStateM.bind, get_apply]
  cases r.locals[n]? <;> rfl

theorem Target.holds_eq (t : Target) (k : Key) (v : Value) (s : Span) :
    t.holds m o k v s = (do
      let object ← t.resolve (m.location s)
      readIs m o ⟨object, k⟩ (m.location s) v) := rfl

theorem Flow.andThen_eq (x y : Eval σ Flow) :
    Flow.andThen x y = x >>= fun flow => match flow with
      | .next => y
      | .returned v => pure (.returned v)
      | .threw a => pure (.threw a) := by
  funext r
  simp only [Flow.andThen, bind, EStateM.bind]
  cases x r with
  | ok flow s => cases flow <;> rfl
  | error e s => rfl

theorem Flow.iterate_succ (x : Eval σ Flow) (n : Nat) :
    Flow.iterate x (n + 1) = Flow.andThen x (Flow.iterate x n) := rfl

theorem Model.location_congr (hfile : m'.file = m.file) : m'.location = m.location := by
  funext s
  simp [Model.location, hfile]

/-! ## Relations that evaluations keep -/

/-- The objects that the event names for the world outside satisfy `q`: the one of a side effect, and those of a
registered value. -/
def Event.Shows (q : ObjectId → Prop) : Event → Prop
  | .sideEffect ⟨.wroteProperty b, _⟩ => q b.object
  | .register r => r.target.AllObjects q
  | .sideEffect ⟨.assignedGlobal _, _⟩ | .read _ _ | .enumerate _ _ | .enter _ | .exit _ => True

/-- A relation between computations of two evaluations whose objects correspond by `f`: where the first one
has a result `a`, the second one has `g a`. It holds of the primitive steps, and sequences and frames keep it. -/
structure Simulation (m m' : Model) (o : Observer σ) (o' : Observer τ) (f : ObjectId → ObjectId)
    (C : ∀ {α β : Type}, (α → β) → Eval σ α → Eval τ β → Prop) : Prop where
  pure : ∀ {α β : Type} (g : α → β) (a : α), C g (pure a) (pure (g a))
  throw : ∀ {α β : Type} (g : α → β) (e : EvalError), e ≠ .aborted → C g (throw e) (throw e)
  bind : ∀ {α β γ δ : Type} {g : α → β} {h : γ → δ} {x : Eval σ α} {y : Eval τ β}
    {k : α → Eval σ γ} {l : β → Eval τ δ}, C g x y → (∀ a, C h (k a) (l (g a))) → C h (x >>= k) (y >>= l)
  framed : ∀ (c : CallableId) {x : Eval σ Flow} {y : Eval τ Flow},
    C id x y → C id (framed o c x) (framed o' c y)
  resolve : ∀ (t : Target) (l : Location), t.AllObjects (fun a => f a = a) → C f (t.resolve l) (t.resolve l)
  notify : ∀ e : Event, (∀ x, e ≠ .sideEffect x) → e.Shows (fun a => f a = a) →
    C id (notify o e) (notify o' (e.rename f))
  assign : ∀ (name : String) (l : Location), C id (announce o ⟨.assignedGlobal name, some l⟩)
    (announce o' ⟨.assignedGlobal name, some l⟩)
  openWrite : ∀ (t : Target) (k : Key) (l : Location), t.AllObjects (fun a => f a = a) →
    C f (openWrite o t k l) (openWrite o' t k l)
  storeWrite : ∀ (b : Binding) (s : WriteSite), C id (storeWrite b s) (storeWrite (b.rename f) (s.rename f))
  allocate : C id (modify Run.allocate) (modify Run.allocate)
  noteThrow : ∀ a : Abrupt, C id (noteThrow a) (noteThrow a)
  readIs : ∀ (b : Binding) (l : Location) (v : Value), v.AllObjects (fun a => f a = a) →
    C id (readIs m o b l v) (readIs m' o' (b.rename f) l v)

namespace Simulation

variable {f : ObjectId → ObjectId} {C : ∀ {α β : Type}, (α → β) → Eval σ α → Eval τ β → Prop}
  {run : CallableId → Location → Eval σ Flow} {run' : CallableId → Location → Eval τ Flow}

theorem andThen (S : Simulation m m' o o' f C) {x y : Eval σ Flow} {x' y' : Eval τ Flow}
    (hx : C id x x') (hy : C id y y') : C id (Flow.andThen x y) (Flow.andThen x' y') := by
  rw [Flow.andThen_eq, Flow.andThen_eq]
  refine S.bind hx fun flow => ?_
  cases flow with
  | next => exact hy
  | returned v => exact S.pure id _
  | threw a => exact S.pure id _

theorem iterate (S : Simulation m m' o o' f C) {x : Eval σ Flow} {x' : Eval τ Flow} (hx : C id x x') (n : Nat) :
    C id (Flow.iterate x n) (Flow.iterate x' n) := by
  induction n with
  | zero => exact S.pure id Flow.next
  | succ n ih =>
    rw [Flow.iterate_succ, Flow.iterate_succ]
    exact S.andThen hx ih

section Program
variable (hfile : m'.file = m.file)
include hfile

theorem op (S : Simulation m m' o o' f C) (hrun : ∀ c l, C id (run c l) (run' c l)) {op : Op}
    (hop : op.AllObjects fun a => f a = a) : C id (op.run m o run) (op.run m' o' run') := by
  have hloc := Model.location_congr hfile
  cases op with
  | write t k v s =>
    rw [Op.run_write_open, Op.run_write_open, hloc]
    refine S.bind (S.openWrite t k _ hop.1) fun object => ?_
    -- The value is one that the body mentions, so it is its own image.
    have hs := S.storeWrite ⟨object, k⟩ ⟨some (m.location s), some v⟩
    simp only [WriteSite.rename, Option.map_some, Value.rename_eq_self hop.2] at hs
    exact S.bind hs fun _ => S.pure id Flow.next
  | read t k s =>
    simp only [Op.run, hloc]
    refine S.bind (S.resolve t _ hop) fun object => S.bind (S.notify (.read ⟨object, k⟩ _) (by simp) trivial) fun _ => ?_
    exact S.pure id Flow.next
  | enumerate t s =>
    simp only [Op.run, hloc]
    refine S.bind (S.resolve t _ hop) fun object => S.bind (S.notify (.enumerate object _) (by simp) trivial) fun _ => ?_
    exact S.pure id Flow.next
  | allocate => exact S.bind S.allocate fun _ => S.pure id Flow.next
  | call c s =>
    simp only [Op.run, hloc]
    refine S.bind (hrun c _) fun flow => ?_
    cases flow <;> exact S.pure id _
  | register v shape s =>
    simp only [Op.run, hloc]
    have he := S.notify (.register ⟨v, shape, none, some (m.location s)⟩) (by simp) hop
    simp only [Event.rename, Value.rename_eq_self hop] at he
    exact S.bind he fun _ => S.pure id Flow.next
  | assignGlobal name s =>
    simp only [Op.run, hloc]
    exact S.bind (S.assign name (m.location s)) fun _ => S.pure id Flow.next
  | throw s =>
    simp only [Op.run, hloc]
    exact S.pure id _
  | mayThrow s =>
    simp only [Op.run, hloc]
    exact S.bind (S.noteThrow _) fun _ => S.pure id Flow.next
  | «return» v => exact S.pure id _

theorem holds (S : Simulation m m' o o' f C) {t : Target} {v : Value} (ht : t.AllObjects fun a => f a = a)
    (hv : v.AllObjects fun a => f a = a) (k : Key) (s : Span) :
    C id (t.holds m o k v s) (t.holds m' o' k v s) := by
  have hloc := Model.location_congr hfile
  rw [Target.holds_eq, Target.holds_eq, hloc]
  exact S.bind (S.resolve t _ ht) fun object => S.readIs ⟨object, k⟩ _ v hv

/-- The relation holds of the two runs of a body. -/
theorem body (S : Simulation m m' o o' f C) (hrun : ∀ c l, C id (run c l) (run' c l)) {b : Body}
    (hb : b.AllObjects fun a => f a = a) : C id (b.run m o run) (b.run m' o' run') := by
  induction b with
  | done => exact S.pure id Flow.next
  | op first rest ih => exact S.andThen (S.op hfile hrun hb.1) (ih hb.2)
  | loop times block rest ihb ihr => exact S.andThen (S.iterate (ihb hb.1) times) (ihr hb.2)
  | ifEquals t k v s block rest ihb ihr =>
    obtain ⟨ht, hv, hblock, hrest⟩ := hb
    refine S.bind (S.holds hfile ht hv k s) fun c => ?_
    cases c with
    | true => exact S.andThen (ihb hblock) (ihr hrest)
    | false => exact ihr hrest

/-- The relation holds of the two evaluations of a call in one program. -/
theorem invoke (S : Simulation m m' o o' f C) (hfuns : m'.functions = m.functions)
    (hbodies : ∀ g ∈ m.functions, g.body.AllObjects fun a => f a = a) (calls : Nat) (c : CallableId)
    (l : Location) : C id (invoke m o calls c l) (invoke m' o' calls c l) := by
  -- Bodies call with one call less left, so the induction is on the calls.
  induction calls generalizing c l with
  | zero => exact S.throw id _ (by simp)
  | succ calls ih =>
    have hfun : m'.function? c = m.function? c := by simp [Model.function?, hfuns]
    simp only [Independence.invoke, hfun]
    cases hg : m.function? c with
    | none => exact S.throw id _ (by simp)
    | some g => exact S.framed c (S.body hfile ih (hbodies g (List.mem_of_getElem? hg)))

end Program

end Simulation

end Independence
