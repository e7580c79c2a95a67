import Independence.Proofs.Evaluation.Chronicle
/-!
# The course of an evaluation

A body takes one step after the other and opens calls, until it runs to its end, returns, throws or fails. What a call
does stands between its start and its end, and the caller goes on only if the call neither threw nor failed. Every
chronicle has this form, and what is proved of evaluations by induction on it holds on all exits.
-/

namespace Independence

namespace Chronicle

/-- How the run of a body ended. -/
inductive Ending where
  | flow (f : Flow)
  | failed

def Ending.of {ε σ : Type} : EStateM.Result ε σ Flow → Ending
  | .ok f _ => .flow f
  | .error _ _ => .failed

/-- The caller of the body goes on. -/
def Ending.resumes : Ending → Bool
  | .flow .next | .flow (.returned _) => true
  | .flow (.threw _) | .failed => false

/-- The step neither starts a body nor ends one. -/
def Step.isPlain : Step → Bool
  | .op (.throw _) | .op (.return _) | .event (.enter _) | .event (.exit _) => false
  | .op _ | .loop _ | .branch _ _ _ _ | .event _ => true

/-- What a call of `f` does while the bodies of `calls` are running, from its start to its end. -/
def called (f : CallableId) (calls : List CallableId) (inner : Chronicle) : Chronicle :=
  ⟨.event (.enter f), f :: calls⟩ :: (inner ++ [⟨.event (.exit f), f :: calls⟩])

/-- What the innermost body of `calls` may do from now on until it ends, if so many more calls may be open at once. -/
inductive Course (m : Model) : Nat → List CallableId → Chronicle → Ending → Prop
  | done {more : Nat} {calls : List CallableId} : Course m more calls [] (.flow .next)
  | failed {more : Nat} {calls : List CallableId} : Course m more calls [] .failed
  | throws {more : Nat} {calls : List CallableId} (span : Span) :
    Course m more calls [⟨.op (.throw span), calls⟩] (.flow (.threw ⟨some (m.location span)⟩))
  | returns {more : Nat} {calls : List CallableId} (v : Value) :
    Course m more calls [⟨.op (.return v), calls⟩] (.flow (.returned v))
  | plain {more : Nat} {calls : List CallableId} {step : Step} {es : Chronicle} {ending : Ending}
    (hstep : step.isPlain = true) (h : Course m more calls es ending) :
    Course m more calls (⟨step, calls⟩ :: es) ending
  | call {more : Nat} {calls : List CallableId} (f : CallableId) {inner es : Chronicle} {ended ending : Ending}
    (hinner : Course m more (f :: calls) inner ended) (hresumes : ended.resumes = true)
    (h : Course m (more + 1) calls es ending) : Course m (more + 1) calls (called f calls inner ++ es) ending
  | leave {more : Nat} {calls : List CallableId} (f : CallableId) {inner : Chronicle} {ending : Ending}
    (hinner : Course m more (f :: calls) inner ending) (hresumes : ending.resumes = false) :
    Course m (more + 1) calls (called f calls inner) ending

variable {m : Model} {more : Nat} {calls : List CallableId} {es fs : Chronicle} {ending : Ending}

theorem Course.append (hes : Course m more calls es (.flow .next)) (hfs : Course m more calls fs ending) :
    Course m more calls (es ++ fs) ending := by
  generalize he : Ending.flow .next = e at hes
  induction hes with
  | done => exact hfs
  | plain hstep _ ih => exact .plain hstep (ih hfs he)
  | call f hinner hresumes _ _ ih =>
    rw [List.append_assoc]
    exact .call f hinner hresumes (ih hfs he)
  | leave f _ hresumes =>
    subst he
    cases hresumes
  | failed | throws span | returns v => cases he

theorem Course.plains (hes : ∀ x ∈ es, x.step.isPlain = true ∧ x.calls = calls) (hfs : Course m more calls fs ending) :
    Course m more calls (es ++ fs) ending := by
  induction es with
  | nil => exact hfs
  | cons x es ih =>
    obtain ⟨⟨hx, rfl⟩, hes⟩ := List.forall_mem_cons.1 hes
    exact .plain hx (ih hes)

theorem suffix_of_mem_called {f : CallableId} {inner : Chronicle} (hinner : ∀ x ∈ inner, f :: calls <:+ x.calls) :
    ∀ x ∈ called f calls inner, f :: calls <:+ x.calls := by
  intro x hx
  simp only [called, List.mem_cons, List.mem_append, List.not_mem_nil, or_false] at hx
  rcases hx with rfl | hx | rfl
  · exact List.suffix_rfl
  · exact hinner x hx
  · exact List.suffix_rfl

/-- Whatever happens in the course of a body, its own callable and those below stay on the stack. -/
theorem Course.suffix (h : Course m more calls es ending) : ∀ x ∈ es, calls <:+ x.calls := by
  induction h with
  | done | failed => simp
  | throws span | returns v => simp
  | plain hstep _ ih => simpa using ih
  | call f _ _ _ ihinner ih =>
    intro x hx
    rcases List.mem_append.1 hx with hx | hx
    · exact (List.suffix_cons f _).trans (suffix_of_mem_called ihinner x hx)
    · exact ih x hx
  | leave f _ _ ih => exact fun x hx => (List.suffix_cons f _).trans (suffix_of_mem_called ih x hx)

/-! ## Throws on some paths -/

def Step.mayThrow? : Step → Option Span
  | .op (.mayThrow span) => some span
  | .op _ | .loop _ | .branch _ _ _ _ | .event _ => none

/-- Where throws that happen on some paths only are reached, in order. -/
def mayThrows (c : Chronicle) : List Span := c.filterMap (·.step.mayThrow?)

/-- The first of the throws that happen on some paths only. -/
def firstMayThrow (m : Model) (c : Chronicle) : Option Abrupt :=
  (mayThrows c).head?.map fun span => ⟨some (m.location span)⟩

@[simp] theorem mayThrows_append (c d : Chronicle) : mayThrows (c ++ d) = mayThrows c ++ mayThrows d :=
  List.filterMap_append

@[simp] theorem firstMayThrow_append (m : Model) (c d : Chronicle) :
    firstMayThrow m (c ++ d) = (firstMayThrow m c).or (firstMayThrow m d) := by
  simp only [firstMayThrow, mayThrows_append, List.head?_append]
  cases (mayThrows c).head? <;> rfl

theorem firstMayThrow_called (f : CallableId) (calls : List CallableId) (inner : Chronicle) :
    firstMayThrow m (called f calls inner) = firstMayThrow m inner := by
  have hcalled : mayThrows (called f calls inner) = mayThrows inner := by
    simp [called, mayThrows, Step.mayThrow?]
  rw [firstMayThrow, hcalled, firstMayThrow]

end Chronicle

open Chronicle

variable {σ α β : Type} {m : Model} {o : Observer σ} {more : Nat} {calls : List CallableId}

/-! ## What computations add to a chronicle -/

/-- Between the two states the chronicle grew by `new`. -/
structure Run.Logs (m : Model) (r s : Run (σ × Chronicle)) (new : Chronicle) : Prop where
  log : s.observer.2 = r.observer.2 ++ new
  mayThrow : s.mayThrow = r.mayThrow.or (firstMayThrow m new)

theorem Run.Logs.single {r s : Run (σ × Chronicle)} {x : Entry} (hlog : s.observer.2 = r.observer.2 ++ [x])
    (hmay : s.mayThrow = r.mayThrow) (hx : x.step.mayThrow? = none) : r.Logs m s [x] :=
  ⟨hlog, by simp [hmay, firstMayThrow, mayThrows, hx]⟩

theorem Run.Logs.refl (r : Run (σ × Chronicle)) : r.Logs m r [] := ⟨by simp, by simp [firstMayThrow, mayThrows]⟩

theorem Run.Logs.trans {r s t : Run (σ × Chronicle)} {es fs : Chronicle} (hes : r.Logs m s es) (hfs : s.Logs m t fs) :
    r.Logs m t (es ++ fs) where
  log := by rw [hfs.log, hes.log, List.append_assoc]
  mayThrow := by rw [hfs.mayThrow, hes.mayThrow, firstMayThrow_append, Option.or_assoc]

/-- The computation takes plain steps of the innermost body, however it ends. -/
def Plainly (m : Model) (calls : List CallableId) (x : Eval (σ × Chronicle) α) : Prop :=
  ∀ r : Run (σ × Chronicle), ∃ new : Chronicle, r.Logs m (finalState (x r)) new ∧
    ∀ e ∈ new, e.step.isPlain = true ∧ e.calls = calls

/-- What the computation adds is a course of the innermost body, and ends as the computation does. -/
def Charts (m : Model) (more : Nat) (calls : List CallableId) (x : Eval (σ × Chronicle) Flow) : Prop :=
  ∀ r : Run (σ × Chronicle), ∃ new : Chronicle, r.Logs m (finalState (x r)) new ∧ Course m more calls new (.of (x r))

/-- What the computation adds is a whole call of `f`, or nothing if the call fails at its start. -/
def ChartsCall (m : Model) (more : Nat) (calls : List CallableId) (f : CallableId) (x : Eval (σ × Chronicle) Flow) :
    Prop :=
  ∀ r : Run (σ × Chronicle), (Ending.of (x r) = .failed ∧ r.Logs m (finalState (x r)) []) ∨
    ∃ less inner, more = less + 1 ∧ r.Logs m (finalState (x r)) (called f calls inner) ∧
      Course m less (f :: calls) inner (.of (x r))

namespace Plainly

theorem of_silent {x : Eval (σ × Chronicle) α} (hx : ∀ r, (finalState (x r)).observer = r.observer ∧
    (finalState (x r)).mayThrow = r.mayThrow) : Plainly m calls x := by
  intro r
  obtain ⟨hobs, hmay⟩ := hx r
  exact ⟨[], ⟨by simp [hobs], by simp [hmay, firstMayThrow, mayThrows]⟩, by simp⟩

theorem pure (a : α) : Plainly m calls (pure a : Eval (σ × Chronicle) α) := of_silent fun _ => ⟨rfl, rfl⟩

theorem bind {x : Eval (σ × Chronicle) α} {k : α → Eval (σ × Chronicle) β} (hx : Plainly m calls x)
    (hk : ∀ a, Plainly m calls (k a)) : Plainly m calls (x >>= k) := by
  intro r
  obtain ⟨new, hnew, hplain⟩ := hx r
  rw [finalState_bind]
  cases h : x r with
  | error e s =>
    rw [h] at hnew
    exact ⟨new, hnew, hplain⟩
  | ok a s =>
    rw [h] at hnew
    obtain ⟨rest, hrest, hplain'⟩ := hk a s
    exact ⟨new ++ rest, hnew.trans hrest, fun e he => (List.mem_append.1 he).elim (hplain e) (hplain' e)⟩

/-- The observer is shown an event that neither starts a body nor ends one. -/
theorem observe {e : Event} (he : e.isCall = false) (r : Run (σ × Chronicle)) :
    r.Logs m (r.observe (o.chronicling calls) e) [⟨.event e, calls⟩] ∧
      ∀ x ∈ [(⟨.event e, calls⟩ : Entry)], x.step.isPlain = true ∧ x.calls = calls := by
  refine ⟨.single rfl rfl rfl, ?_⟩
  simp only [List.mem_singleton, forall_eq, and_true]
  cases e <;> first | rfl | cases he

theorem notify {e : Event} (he : e.isCall = false) : Plainly m calls (notify (o.chronicling calls) e) :=
  fun r => ⟨_, observe he r⟩

theorem announce (e : SideEffect) : Plainly m calls (announce (o.chronicling calls) e) := by
  intro r
  rw [finalState_announce]
  exact ⟨_, observe rfl r⟩

theorem announceWrite (b : Binding) (l : Location) : Plainly m calls (announceWrite (o.chronicling calls) b l) := by
  intro r
  simp only [Independence.announceWrite]
  cases r.created.contains b.object with
  | true => exact pure () r
  | false => exact announce _ r

theorem resolve (t : Target) (l : Location) : Plainly m calls (t.resolve l : Eval (σ × Chronicle) ObjectId) := by
  refine of_silent fun r => ?_
  cases t with
  | object a => exact ⟨rfl, rfl⟩
  | allocated n =>
    rw [Target.resolve_allocated]
    cases r.locals[n]? <;> exact ⟨rfl, rfl⟩

theorem holds (t : Target) (k : Key) (v : Value) (s : Span) :
    Plainly m calls (t.holds m (o.chronicling calls) k v s) :=
  bind (resolve t _) fun _ => bind (notify rfl) fun _ => of_silent fun _ => ⟨rfl, rfl⟩

theorem note {step : Step} (hstep : step.isPlain = true) (hmay : step.mayThrow? = none) :
    Plainly m calls (note step calls : Eval (σ × Chronicle) Unit) :=
  fun _ => ⟨[⟨step, calls⟩], .single rfl rfl hmay, by simp [hstep]⟩

end Plainly

namespace Charts

theorem next : Charts m more calls (pure .next : Eval (σ × Chronicle) Flow) := fun r => ⟨[], .refl r, .done⟩

theorem after {x : Eval (σ × Chronicle) α} {k : α → Eval (σ × Chronicle) Flow} (hx : Plainly m calls x)
    (hk : ∀ a, Charts m more calls (k a)) : Charts m more calls (x >>= k) := by
  intro r
  obtain ⟨new, hnew, hplain⟩ := hx r
  simp only [Bind.bind, EStateM.bind]
  cases h : x r with
  | error e s =>
    rw [h] at hnew
    exact ⟨new, hnew, List.append_nil new ▸ Course.plains hplain .failed⟩
  | ok a s =>
    rw [h] at hnew
    obtain ⟨rest, hrest, hcourse⟩ := hk a s
    exact ⟨new ++ rest, hnew.trans hrest, .plains hplain hcourse⟩

theorem andThen {x y : Eval (σ × Chronicle) Flow} (hx : Charts m more calls x) (hy : Charts m more calls y) :
    Charts m more calls (Flow.andThen x y) := by
  intro r
  obtain ⟨new, hnew, hcourse⟩ := hx r
  simp only [Flow.andThen]
  cases h : x r with
  | error e s =>
    rw [h] at hnew hcourse
    exact ⟨new, hnew, hcourse⟩
  | ok flow s =>
    rw [h] at hnew hcourse
    cases flow with
    | next =>
      obtain ⟨rest, hrest, hcourse'⟩ := hy s
      exact ⟨new ++ rest, hnew.trans hrest, hcourse.append hcourse'⟩
    | returned v => exact ⟨new, hnew, hcourse⟩
    | threw a => exact ⟨new, hnew, hcourse⟩

theorem iterate {x : Eval (σ × Chronicle) Flow} (hx : Charts m more calls x) (n : Nat) :
    Charts m more calls (Flow.iterate x n) := by
  induction n with
  | zero => exact next
  | succ n ih =>
    rw [Flow.iterate_succ]
    exact hx.andThen ih

variable {run : CallableId → Location → Eval (σ × Chronicle) Flow}

/-- A call by the innermost body: the caller goes on after it, or ends as it did. -/
theorem ofCall {f : CallableId} {l : Location} (h : ChartsCall m more calls f (run f l)) :
    Charts m more calls (do
      match ← run f l with
      | .threw a => return .threw a
      | .returned _ | .next => return .next) := by
  intro r
  simp only [Bind.bind, EStateM.bind]
  rcases h r with ⟨hfailed, hlogs⟩ | ⟨less, inner, rfl, hlogs, hcourse⟩
  · cases hx : run f l r with
    | error e s =>
      rw [hx] at hlogs
      exact ⟨[], hlogs, .failed⟩
    | ok flow s =>
      rw [hx] at hfailed
      cases hfailed
  · refine ⟨called f calls inner, ?_⟩
    cases hx : run f l r with
    | error e s =>
      rw [hx] at hlogs hcourse
      exact ⟨hlogs, .leave f hcourse rfl⟩
    | ok flow s =>
      rw [hx] at hlogs hcourse
      cases flow with
      | threw a => exact ⟨hlogs, .leave f hcourse rfl⟩
      | next => exact ⟨hlogs, List.append_nil (called f calls inner) ▸ Course.call f hcourse rfl .done⟩
      | returned v => exact ⟨hlogs, List.append_nil (called f calls inner) ▸ Course.call f hcourse rfl .done⟩

/-- One operation, noted when it is reached. -/
theorem op (hrun : ∀ f l, ChartsCall m more calls f (run f l)) (op : Op) :
    Charts m more calls (do note (.op op) calls; op.run m (o.chronicling calls) run) := by
  cases op with
  | write t k v s =>
    refine after (.note rfl rfl) fun _ => ?_
    rw [Op.run_write]
    refine after (.resolve t _) fun a => after (.announceWrite ⟨a, k⟩ _) fun _ => ?_
    exact after (.of_silent fun _ => ⟨rfl, rfl⟩) fun _ => next
  | read t k s =>
    exact after (.note rfl rfl) fun _ => after (.resolve t _) fun a => after (.notify rfl) fun _ => next
  | enumerate t s =>
    exact after (.note rfl rfl) fun _ => after (.resolve t _) fun a => after (.notify rfl) fun _ => next
  | allocate => exact after (.note rfl rfl) fun _ => after (.of_silent fun _ => ⟨rfl, rfl⟩) fun _ => next
  | call f s => exact after (.note rfl rfl) fun _ => ofCall (hrun f _)
  | register v shape s => exact after (.note rfl rfl) fun _ => after (.notify rfl) fun _ => next
  | assignGlobal name s => exact after (.note rfl rfl) fun _ => after (.announce _) fun _ => next
  | mayThrow s =>
    -- The step and what it changes about the run belong together.
    intro r
    refine ⟨[⟨.op (.mayThrow s), calls⟩], ⟨rfl, ?_⟩, .plain rfl .done⟩
    have hor : (r.mayThrow <|> some ⟨some (m.location s)⟩) = r.mayThrow.or (some ⟨some (m.location s)⟩) := by
      cases r.mayThrow <;> rfl
    exact hor
  | throw s => exact fun r => ⟨[⟨.op (.throw s), calls⟩], .single rfl rfl rfl, .throws s⟩
  | «return» v => exact fun r => ⟨[⟨.op (.return v), calls⟩], .single rfl rfl rfl, .returns v⟩

theorem chronicle (hrun : ∀ f l, ChartsCall m more calls f (run f l)) (b : Body) :
    Charts m more calls (b.chronicle m o calls run) := by
  induction b with
  | done => exact next
  | op first rest ih => exact (op hrun first).andThen ih
  | loop times block rest ihb ihr => exact (after (.note rfl rfl) fun _ => ihb.iterate times).andThen ihr
  | ifEquals t k v s block rest ihb ihr =>
    refine after (.note rfl rfl) fun _ => after (.holds t k v s) fun c => ?_
    cases c with
    | true => exact ihb.andThen ihr
    | false => exact ihr

/-- The body of `f` runs between its start and its end. -/
theorem framed {f : CallableId} {x : Eval (σ × Chronicle) Flow} (hx : Charts m more (f :: calls) x) :
    ChartsCall m (more + 1) calls f (framed (o.chronicling (f :: calls)) f x) := by
  intro r
  obtain ⟨inner, ⟨hlog, hmay⟩, hcourse⟩ := hx { r.observe (o.chronicling (f :: calls)) (.enter f) with locals := #[] }
  refine .inr ⟨more, inner, rfl, ?_⟩
  simp only [Independence.framed]
  cases hb : x { r.observe (o.chronicling (f :: calls)) (.enter f) with locals := #[] }
  all_goals
    rw [hb] at hlog hmay hcourse
    refine ⟨⟨?_, ?_⟩, hcourse⟩
    · simp only [finalState] at hlog
      simp [finalState, Run.observe, Observer.chronicling, hlog, called]
    · rw [firstMayThrow_called]
      exact hmay

/-- Every call, however it ends. -/
theorem invokeChronicled (more : Nat) (calls : List CallableId) (f : CallableId) (l : Location) :
    ChartsCall m more calls f (invokeChronicled m o more calls f l) := by
  induction more generalizing calls f l with
  | zero => exact fun r => .inl ⟨rfl, .refl r⟩
  | succ more ih =>
    simp only [Independence.invokeChronicled]
    cases m.function? f with
    | none => exact fun r => .inl ⟨rfl, .refl r⟩
    | some g => exact framed (chronicle (ih (f :: calls)) g.body)

end Charts

end Independence
