import Independence.Proofs.Evaluation.Progress
/-!
# What an evaluation creates and touches

The objects that an evaluation creates are exactly those with the numbers that it hands out. Everything that it
reads, enumerates or writes is mentioned by the program or created by itself, and the bodies that it enters are
left again in reverse order.
-/

namespace Independence

variable {α : Type} {p : ObjectId → Prop} {n : Nat} {m : Model}

/-! ## Calls are well nested -/

/-- Every body that is entered is left again, in reverse order. -/
inductive Balanced : List Event → Prop
  | nil : Balanced []
  | plain {e : Event} {es : List Event} (he : e.isCall = false) (hes : Balanced es) : Balanced (e :: es)
  | call (f : CallableId) {es fs : List Event} (hes : Balanced es) (hfs : Balanced fs) :
    Balanced (.enter f :: (es ++ .exit f :: fs))

theorem Balanced.append {es fs : List Event} (hes : Balanced es) (hfs : Balanced fs) : Balanced (es ++ fs) := by
  induction hes with
  | nil => exact hfs
  | plain he _ ih => exact .plain he ih
  | call f h _ _ ih =>
    simp only [List.cons_append, List.append_assoc]
    exact .call f h ih

/-- What a step adds to the trace is balanced. -/
def Run.Extends (r s : Run (List Event)) : Prop := ∃ new, Balanced new ∧ s.observer = r.observer ++ new

theorem progress_extends : Progress .trace (fun _ => True) Run.Extends where
  refl r := ⟨[], .nil, by simp⟩
  trans := by
    rintro r s t ⟨es, hes, hs⟩ ⟨fs, hfs, ht⟩
    exact ⟨es ++ fs, hes.append hfs, by rw [ht, hs, List.append_assoc]⟩
  shown r e _ he := ⟨[e], .plain he .nil, rfl⟩
  stored r b l v _ _ _ := ⟨[], .nil, by simp⟩
  allocated r := ⟨[], .nil, by simp [Run.allocate]⟩
  noted r a := ⟨[], .nil, by simp⟩
  framed := by
    rintro r s c ⟨es, hes, hs⟩
    refine ⟨.enter c :: (es ++ [.exit c]), .call c hes .nil, ?_⟩
    have hs : s.observer = (r.observer ++ [.enter c]) ++ es := hs
    simp [Run.observe, Observer.trace, hs]

/-! ## Objects are new -/

/-- The run started when `n` objects were handed out: the objects created are those with the numbers handed out
since, and only they and what satisfies `p` are touched. -/
structure Run.Fresh (p : ObjectId → Prop) (n : Nat) (r : Run (List Event)) : Prop where
  le_next : n ≤ r.nextObject
  mem_created : ∀ a, a ∈ r.created ↔ n ≤ a.index ∧ a.index < r.nextObject
  locals : ∀ a ∈ r.locals, a ∈ r.created
  writes : ∀ b ∈ r.writes, p b.object ∨ b.object ∈ r.created
  values : ∀ (b : Binding) (s : WriteSite) (v : Value), r.writes[b]? = some s → s.value = some v → v.AllObjects p
  seen : ∀ e ∈ r.observer, e.Within fun a => p a ∨ n ≤ a.index

theorem Run.fresh_start (p : ObjectId → Prop) (n : Nat) : (Run.start [] n).Fresh p n where
  le_next := Nat.le_refl n
  mem_created a := by
    constructor
    · intro h
      exact absurd h Std.ExtTreeSet.not_mem_empty
    · rintro ⟨h, h'⟩
      exact absurd h (Nat.not_le.2 h')
  locals a ha := by simp [Run.start] at ha
  writes b hb := absurd hb Std.ExtTreeMap.not_mem_empty
  values b s v hb := by simp [Run.start] at hb
  seen e he := by simp [Run.start] at he

theorem Event.Within.mono {q q' : ObjectId → Prop} (h : ∀ a, q a → q' a) {e : Event} (he : e.Within q) :
    e.Within q' := by
  match e, he with
  | .read b l, he => exact ⟨h _ he.1, he.2⟩
  | .enumerate a l, he => exact ⟨h _ he.1, he.2⟩
  | .sideEffect ⟨.wroteProperty b, l⟩, he => exact h _ he
  | .sideEffect ⟨.assignedGlobal _, _⟩, _ => trivial
  | .register _, _ | .enter _, _ | .exit _, _ => trivial

/-- The run goes on handing out numbers and stays fresh. -/
def Run.Ages (p : ObjectId → Prop) (n : Nat) (r s : Run (List Event)) : Prop :=
  r.Fresh p n → s.Fresh p n ∧ ∀ a ∈ r.created, a ∈ s.created

namespace Run.Fresh

variable {r : Run (List Event)}

theorem observe (hr : r.Fresh p n) {e : Event} (he : e.Within (r.Reaches p)) :
    (r.observe .trace e).Fresh p n where
  le_next := hr.le_next
  mem_created := hr.mem_created
  locals := hr.locals
  writes := hr.writes
  values := hr.values
  seen e' he' := by
    rcases List.mem_append.1 he' with h | h
    · exact hr.seen e' h
    · rw [List.mem_singleton.1 h]
      refine he.mono fun a ha => ha.imp_right fun hl => ?_
      exact ((hr.mem_created a).1 (hr.locals a hl)).1

theorem store (hr : r.Fresh p n) {b : Binding} (hb : r.Reaches p b.object) (l : Location) {v : Value}
    (hv : v.AllObjects p) : { r with writes := r.writes.insert b ⟨some l, some v⟩ }.Fresh p n where
  le_next := hr.le_next
  mem_created := hr.mem_created
  locals := hr.locals
  writes c hc := by
    rcases Std.ExtTreeMap.mem_insert.1 hc with h | h
    · rw [← Std.compare_eq_iff_eq.1 h]
      exact hb.imp_right fun hl => hr.locals _ hl
    · exact hr.writes c h
  values c s w hc hw := by
    rw [Std.ExtTreeMap.getElem?_insert] at hc
    split at hc
    · cases hc
      cases hw
      exact hv
    · exact hr.values c s w hc hw
  seen := hr.seen

theorem mem_created_allocate (hr : r.Fresh p n) (a : ObjectId) :
    a ∈ r.allocate.created ↔ n ≤ a.index ∧ a.index < r.nextObject + 1 := by
  have hn := hr.le_next
  have ha : (⟨r.nextObject⟩ : ObjectId) = a ↔ a.index = r.nextObject := by
    cases a
    simp [eq_comm]
  simp only [Run.allocate, Std.ExtTreeSet.mem_insert, Std.compare_eq_iff_eq, hr.mem_created, ha]
  omega

theorem allocate (hr : r.Fresh p n) : r.allocate.Fresh p n where
  le_next := Nat.le_succ_of_le hr.le_next
  mem_created := hr.mem_created_allocate
  locals a ha := by
    have h := hr.le_next
    rw [mem_created_allocate hr]
    rcases Array.mem_push.1 ha with ha | rfl
    · have := (hr.mem_created a).1 (hr.locals a ha)
      omega
    · simp only
      omega
  writes b hb := (hr.writes b hb).imp_right fun h => Std.ExtTreeSet.mem_insert.2 (.inr h)
  values := hr.values
  seen := hr.seen

end Run.Fresh

theorem progress_ages (p : ObjectId → Prop) (n : Nat) : Progress .trace p (Run.Ages p n) where
  refl r hr := ⟨hr, fun _ h => h⟩
  trans hrs hst hr := by
    obtain ⟨hs, hcs⟩ := hrs hr
    obtain ⟨ht, hct⟩ := hst hs
    exact ⟨ht, fun a h => hct a (hcs a h)⟩
  shown r e he _ hr := ⟨hr.observe he, fun _ h => h⟩
  stored r b l v hb hv _ hr := ⟨hr.store hb l hv, fun _ h => h⟩
  allocated r hr := ⟨hr.allocate, fun _ h => Std.ExtTreeSet.mem_insert.2 (.inr h)⟩
  noted r a hr := ⟨⟨hr.le_next, hr.mem_created, hr.locals, hr.writes, hr.values, hr.seen⟩, fun _ h => h⟩
  framed r s c hin hr := by
    have henter : Run.Fresh p n { r.observe .trace (.enter c) with locals := #[] } := by
      have h : (r.observe .trace (.enter c)).Fresh p n := hr.observe trivial
      exact ⟨h.le_next, h.mem_created, fun a ha => by simp at ha, h.writes, h.values, h.seen⟩
    obtain ⟨hs, hcs⟩ := hin henter
    have hexit : (s.observe .trace (.exit c)).Fresh p n := hs.observe trivial
    -- The frame gives back the objects of its caller, which were created before.
    have hlocals : ∀ a ∈ r.locals, a ∈ s.created := fun a ha => hcs a (hr.locals a ha)
    exact ⟨⟨hexit.le_next, hexit.mem_created, hlocals, hexit.writes, hexit.values, hexit.seen⟩, hcs⟩

/-! ## Results come from the program -/

section Results
variable {σ : Type} {o : Observer σ} {run : CallableId → Location → Eval σ Flow}

/-- A value that is returned mentions only objects that satisfy `p`, and a throw has a location. -/
def Flow.Within (p : ObjectId → Prop) : Flow → Prop
  | .next => True
  | .returned v => v.AllObjects p
  | .threw a => a.location.isSome

/-- Whatever the computation ends with is within `p`. -/
def Returns (p : ObjectId → Prop) (x : Eval σ Flow) : Prop :=
  ∀ (r s : Run σ) (flow : Flow), x r = .ok flow s → flow.Within p

theorem Returns.andThen {x y : Eval σ Flow} (hx : Returns p x) (hy : Returns p y) :
    Returns p (Flow.andThen x y) := by
  intro r s flow h
  simp only [Flow.andThen] at h
  split at h
  · next t _ => exact hy t s flow h
  · exact hx r s flow h

theorem Returns.iterate {x : Eval σ Flow} (hx : Returns p x) (k : Nat) : Returns p (Flow.iterate x k) := by
  induction k with
  | zero =>
    intro r s flow h
    cases h
    trivial
  | succ k ih =>
    rw [Flow.iterate_succ]
    exact hx.andThen ih

theorem Returns.bind {β : Type} {x : Eval σ β} {k : β → Eval σ Flow} (hk : ∀ a, Returns p (k a)) :
    Returns p (x >>= k) := by
  intro r s flow h
  simp only [Bind.bind, EStateM.bind] at h
  split at h
  · next a t _ => exact hk a t s flow h
  · cases h

theorem Returns.next : Returns p (pure .next : Eval σ Flow) := by
  intro r s flow h
  cases h
  trivial

theorem Returns.op (hrun : ∀ c l, Returns p (run c l)) {op : Op} (hop : op.AllObjects p) :
    Returns p (op.run m o run) := by
  cases op with
  | write t k v s =>
    rw [Op.run_write]
    exact .bind fun _ => .bind fun _ => .bind fun _ => .next
  | read t k s => exact .bind fun _ => .bind fun _ => .next
  | enumerate t s => exact .bind fun _ => .bind fun _ => .next
  | allocate => exact .bind fun _ => .next
  | call c s =>
    intro r t flow h
    simp only [Op.run, Bind.bind, EStateM.bind] at h
    split at h
    · next inner u hinner =>
      have hwithin := hrun _ _ r u inner hinner
      cases inner <;> cases h <;> first | exact hwithin | trivial
    · cases h
  | register v shape s => exact .bind fun _ => .next
  | assignGlobal name s => exact .bind fun _ => .next
  | throw s =>
    intro r t flow h
    cases h
    rfl
  | mayThrow s => exact .bind fun _ => .next
  | «return» w =>
    intro r t flow h
    cases h
    exact hop

theorem Returns.body (hrun : ∀ c l, Returns p (run c l)) {b : Body} (hb : b.AllObjects p) :
    Returns p (b.run m o run) := by
  induction b with
  | done => exact .next
  | op first rest ih => exact (Returns.op hrun hb.1).andThen (ih hb.2)
  | loop times block rest ihb ihr => exact ((ihb hb.1).iterate times).andThen (ihr hb.2)
  | ifEquals t k v s block rest ihb ihr =>
    refine .bind fun c => ?_
    cases c with
    | true => exact (ihb hb.2.2.1).andThen (ihr hb.2.2.2)
    | false => exact ihr hb.2.2.2

theorem Returns.invoke (hm : ∀ g ∈ m.functions, g.body.AllObjects p) (calls : Nat) (c : CallableId)
    (l : Location) : Returns p (invoke m o calls c l) := by
  induction calls generalizing c l with
  | zero =>
    intro r s flow h
    cases h
  | succ calls ih =>
    intro r s flow h
    simp only [Independence.invoke] at h
    cases hg : m.function? c with
    | none =>
      rw [hg] at h
      cases h
    | some g =>
      rw [hg] at h
      simp only [framed] at h
      split at h
      · next inner t hb =>
        cases h
        exact Returns.body ih (hm g (List.mem_of_getElem? hg)) _ t _ hb
      · cases h

end Results

/-! ## Evaluations -/

/-- What is true of the effects of an evaluation on `m` that leaves the model `m'`. -/
structure Effects.Fresh (e : Effects) (p : ObjectId → Prop) (m m' : Model) : Prop where
  mem_created : ∀ a, a ∈ e.created ↔ m.nextObject ≤ a.index ∧ a.index < m'.nextObject
  writes : ∀ b ∈ e.writes, p b.object ∨ b.object ∈ e.created
  values : ∀ (b : Binding) (s : WriteSite) (v : Value), e.writes[b]? = some s → s.value = some v → v.AllObjects p
  result : e.result.AllObjects p

theorem Run.allObjects_completion {σ : Type} (r : Run σ) {flow : Flow} (hflow : flow.Within p) :
    (r.completion flow).AllObjects p := by
  cases flow with
  | next => cases h : r.mayThrow <;> simp [Run.completion, h, Completion.AllObjects, Value.undefined, Value.AllObjects]
  | returned v =>
    have hv : v.AllObjects p := hflow
    cases h : r.mayThrow <;> simpa [Run.completion, h, Completion.AllObjects]
  | threw a => trivial

/-- A run is abrupt where its body threw. -/
theorem Run.abrupt_of_completion {σ : Type} {r : Run σ} {flow : Flow} {a : Abrupt}
    (h : r.completion flow = .abrupt a) : flow = .threw a := by
  cases flow with
  | threw b =>
    cases h
    rfl
  | _ => cases hm : r.mayThrow <;> simp [Run.completion, hm] at h

/-- The events of an evaluation are those of its body, well nested, between the start and the end of the callee. There
are none if the callee is unknown. -/
theorem Model.events_traceOf (m : Model) (call : Call) :
    (finalState (m.traceOf call)).1 = [] ∨
      ∃ es, Balanced es ∧ (finalState (m.traceOf call)).1 = .enter call.callee :: (es ++ [.exit call.callee]) := by
  rw [Model.traceOf, Model.finalState_evaluate]
  simp only [invoke]
  cases hg : m.function? call.callee with
  | none => exact .inl rfl
  | some g =>
    obtain ⟨es, hes, hs⟩ := progress_extends.body (m := m)
      (fun c l => progress_extends.invoke (fun g _ => g.body.allObjects_of_forall fun _ => trivial) maxCallDepth c l)
      (g.body.allObjects_of_forall fun _ => trivial)
      { (Run.start [] m.nextObject).observe .trace (.enter call.callee) with locals := #[] }
    refine .inr ⟨es, hes, ?_⟩
    simp only [framed]
    cases hb : g.body.run m .trace (invoke m .trace maxCallDepth)
        { (Run.start [] m.nextObject).observe .trace (.enter call.callee) with locals := #[] } <;>
      rw [hb] at hs <;>
      exact congrArg (· ++ [Event.exit call.callee]) hs

section Evaluations
variable (hm : ∀ g ∈ m.functions, g.body.AllObjects p) (call : Call)
include hm

theorem fresh_invoke : (finalState (invoke m .trace (maxCallDepth + 1) call.callee call.location
    (.start [] m.nextObject))).Fresh p m.nextObject :=
  ((progress_ages p m.nextObject).invoke hm _ call.callee call.location _ (Run.fresh_start p _)).1

/-- What an evaluation reads or enumerates is mentioned by the program or new. -/
theorem Model.within_traceOf :
    ∀ e ∈ (finalState (m.traceOf call)).1, e.Within fun a => p a ∨ m.nextObject ≤ a.index := by
  rw [Model.traceOf, Model.finalState_evaluate]
  exact (fresh_invoke hm call).seen

theorem Model.fresh_of_traceOf {e : Effects} {es : List Event} {m' : Model} (h : m.traceOf call = .ok e (es, m')) :
    e.Fresh p m m' := by
  have hf := fresh_invoke hm call
  simp only [Model.traceOf, Model.evaluate] at h
  cases hi : invoke m .trace (maxCallDepth + 1) call.callee call.location (.start [] m.nextObject) with
  | error e r =>
    rw [hi] at h
    cases h
  | ok flow r =>
    rw [hi] at h hf
    cases h
    have hflow := Returns.invoke hm _ _ _ _ _ flow hi
    exact ⟨hf.mem_created, hf.writes, hf.values, r.allObjects_completion hflow⟩

end Evaluations

/-- An evaluation that is definitely abrupt threw somewhere. -/
theorem Model.exists_location_of_abrupt {call : Call} {e : Effects} {es : List Event} {m' : Model}
    (h : m.traceOf call = .ok e (es, m')) {a : Abrupt} (ha : e.result = .abrupt a) : ∃ l, a.location = some l := by
  simp only [Model.traceOf, Model.evaluate] at h
  cases hi : invoke m .trace (maxCallDepth + 1) call.callee call.location (.start [] m.nextObject) with
  | error x r =>
    rw [hi] at h
    cases h
  | ok flow r =>
    rw [hi] at h
    cases h
    have hflow : flow.Within fun _ => True :=
      Returns.invoke (fun g _ => g.body.allObjects_of_forall fun _ => trivial) _ _ _ _ _ flow hi
    rw [Run.abrupt_of_completion ha] at hflow
    exact Option.isSome_iff_exists.1 hflow

end Independence
