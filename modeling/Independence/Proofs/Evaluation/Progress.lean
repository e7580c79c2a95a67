import Mathlib.Order.Defs.Unbundled
import Independence.Proofs.Evaluation.Trace
/-!
# What evaluations keep

A preorder on the states of a run that every primitive step follows is followed by every evaluation, however it
ends. A step touches only objects that the program mentions or that the running function allocated.
-/

namespace Independence

variable {σ α β : Type} {m : Model} {o : Observer σ} {p : ObjectId → Prop}

/-- The event starts or stops the body of a callable. -/
def Event.isCall : Event → Bool
  | .enter _ | .exit _ => true
  | .sideEffect _ | .register _ | .read _ _ | .enumerate _ _ => false

/-- The object that the event reads, enumerates or writes satisfies `q`, and a read or an enumeration has a
location. -/
def Event.Within (q : ObjectId → Prop) : Event → Prop
  | .read b location => q b.object ∧ location.isSome
  | .enumerate a location => q a ∧ location.isSome
  | .sideEffect ⟨.wroteProperty b, _⟩ => q b.object
  | .sideEffect ⟨.assignedGlobal _, _⟩ | .register _ | .enter _ | .exit _ => True

/-- The program mentions the object, or the running function allocated it. -/
def Run.Reaches (p : ObjectId → Prop) (r : Run σ) (a : ObjectId) : Prop := p a ∨ a ∈ r.locals

/-- A write may be stored: the run created the object itself, or the observer was just told. -/
def Run.Announced (o : Observer σ) (b : Binding) (l : Location) (r : Run σ) : Prop :=
  b.object ∈ r.created ∨ ∃ q : Run σ, r = q.observe o (.sideEffect ⟨.wroteProperty b, some l⟩)

/-- A preorder that the primitive steps of an evaluation follow and that frames keep. -/
structure Progress (o : Observer σ) (p : ObjectId → Prop) (T : Run σ → Run σ → Prop) : Prop where
  refl : ∀ r, T r r
  trans : ∀ {r s t}, T r s → T s t → T r t
  shown : ∀ (r : Run σ) (e : Event), e.Within (r.Reaches p) → e.isCall = false → T r (r.observe o e)
  stored : ∀ (r : Run σ) (b : Binding) (l : Location) (v : Value), r.Reaches p b.object → v.AllObjects p →
    r.Announced o b l → T r { r with writes := r.writes.insert b ⟨some l, some v⟩ }
  allocated : ∀ r : Run σ, T r r.allocate
  noted : ∀ (r : Run σ) (a : Abrupt), T r { r with mayThrow := r.mayThrow <|> some a }
  framed : ∀ (r s : Run σ) (c : CallableId), T { r.observe o (.enter c) with locals := #[] } s →
    T r { s.observe o (.exit c) with locals := r.locals }

/-- A computation that only moves along the preorder. -/
def Moves (T : Run σ → Run σ → Prop) (x : Eval σ α) : Prop := ∀ r, T r (finalState (x r))

@[simp] theorem finalState_announce (o : Observer σ) (e : SideEffect) (r : Run σ) :
    finalState (announce o e r) = r.observe o (.sideEffect e) := by
  unfold announce Run.observe
  obtain ⟨d, t⟩ := o.answer (.sideEffect e) r.observer
  cases d <;> rfl

theorem finalState_bind (x : Eval σ α) (k : α → Eval σ β) (r : Run σ) :
    finalState ((x >>= k) r) = match x r with
      | .ok a s => finalState (k a s)
      | .error _ s => s := by
  simp only [bind, EStateM.bind]
  cases x r <;> rfl

theorem finalState_resolve (t : Target) (l : Location) (r : Run σ) : finalState (t.resolve l r) = r := by
  cases t with
  | object a => rfl
  | allocated n =>
    rw [Target.resolve_allocated]
    cases r.locals[n]? <;> rfl

theorem finalState_framed (o : Observer σ) (c : CallableId) (x : Eval σ Flow) (r : Run σ) :
    finalState (framed o c x r) =
      { (finalState (x { r.observe o (.enter c) with locals := #[] })).observe o (.exit c) with locals := r.locals } := by
  simp only [framed]
  cases x { r.observe o (.enter c) with locals := #[] } <;> rfl

namespace Moves

variable {T : Run σ → Run σ → Prop} [IsPreorder (Run σ) T]

theorem pure (a : α) : Moves T (Pure.pure a : Eval σ α) := refl_of T

theorem bind {x : Eval σ α} {k : α → Eval σ β} (hx : Moves T x) (hk : ∀ a, Moves T (k a)) : Moves T (x >>= k) := by
  intro r
  have h := hx r
  rw [finalState_bind]
  cases hr : x r <;> rw [hr] at h
  · exact trans_of T h (hk _ _)
  · exact h

theorem andThen {x y : Eval σ Flow} (hx : Moves T x) (hy : Moves T y) : Moves T (Flow.andThen x y) := by
  rw [Flow.andThen_eq]
  refine bind hx fun flow => ?_
  cases flow with
  | next => exact hy
  | returned v => exact pure _
  | threw a => exact pure _

theorem iterate {x : Eval σ Flow} (hx : Moves T x) (times : Nat) : Moves T (Flow.iterate x times) := by
  induction times with
  | zero => exact pure Flow.next
  | succ times ih =>
    rw [Flow.iterate_succ]
    exact andThen hx ih

end Moves

namespace Progress

variable {T : Run σ → Run σ → Prop} {run : CallableId → Location → Eval σ Flow}

theorem isPreorder (P : Progress o p T) : IsPreorder (Run σ) T where
  refl := P.refl
  trans _ _ _ := P.trans

/-- The object that a target stands for is mentioned or allocated by the running function. -/
theorem resolve_bind (P : Progress o p T) {t : Target} (ht : t.AllObjects p) {l : Location}
    {k : ObjectId → Eval σ β} (hk : ∀ r a, r.Reaches p a → T r (finalState (k a r))) :
    Moves T (t.resolve l >>= k) := by
  intro r
  rw [finalState_bind]
  cases t with
  | object a => exact hk r a (.inl ht)
  | allocated n =>
    rw [Target.resolve_allocated]
    cases hn : r.locals[n]? with
    | none => exact P.refl r
    | some a => exact hk r a (.inr (Array.mem_of_getElem? hn))

theorem write (P : Progress o p T) {b : Binding} {l : Location} {v : Value} {r : Run σ}
    (hb : r.Reaches p b.object) (hv : v.AllObjects p) :
    T r (finalState ((do announceWrite o b l; storeWrite b ⟨some l, some v⟩; return Flow.next : Eval σ Flow) r)) := by
  rw [finalState_bind]
  cases hc : r.created.contains b.object with
  | true =>
    simp only [announceWrite, hc, if_true]
    exact P.stored r b l v hb hv (.inl (Std.ExtTreeSet.mem_iff_contains.2 hc))
  | false =>
    have hs := P.shown r (.sideEffect ⟨.wroteProperty b, some l⟩) hb rfl
    simp only [announceWrite, hc]
    cases ha : announce o ⟨.wroteProperty b, some l⟩ r with
    | error e t =>
      rw [← finalState_announce, ha] at hs
      exact hs
    | ok u t =>
      have ht : t = r.observe o (.sideEffect ⟨.wroteProperty b, some l⟩) := by
        rw [← finalState_announce, ha]
        rfl
      subst ht
      exact P.trans hs (P.stored _ b l v hb hv (.inr ⟨r, rfl⟩))

theorem op (P : Progress o p T) (hrun : ∀ c l, Moves T (run c l)) {op : Op} (hop : op.AllObjects p) :
    Moves T (op.run m o run) := by
  have := P.isPreorder
  cases op with
  | write t k v s =>
    rw [Op.run_write]
    exact P.resolve_bind hop.1 fun r a ha => P.write ha hop.2
  | read t k s =>
    refine P.resolve_bind hop fun r a ha => ?_
    exact P.shown r (.read ⟨a, k⟩ (some (m.location s))) ⟨ha, rfl⟩ rfl
  | enumerate t s =>
    refine P.resolve_bind hop fun r a ha => ?_
    exact P.shown r (.enumerate a (some (m.location s))) ⟨ha, rfl⟩ rfl
  | allocate => exact P.allocated
  | call c s =>
    refine Moves.bind (hrun c _) fun flow r => ?_
    cases flow <;> exact P.refl r
  | register v shape s => exact fun r => P.shown r (.register _) trivial rfl
  | assignGlobal name s =>
    refine Moves.bind (fun r => ?_) fun _ r => P.refl r
    rw [finalState_announce]
    exact P.shown r (.sideEffect _) trivial rfl
  | throw s => exact P.refl
  | mayThrow s => exact fun r => P.noted r _
  | «return» v => exact P.refl

/-- Every run of a body follows the preorder. -/
theorem body (P : Progress o p T) (hrun : ∀ c l, Moves T (run c l)) {b : Body} (hb : b.AllObjects p) :
    Moves T (b.run m o run) := by
  have := P.isPreorder
  induction b with
  | done => exact P.refl
  | op first rest ih => exact Moves.andThen (P.op hrun hb.1) (ih hb.2)
  | loop times block rest ihb ihr => exact Moves.andThen (Moves.iterate (ihb hb.1) times) (ihr hb.2)
  | ifEquals t k v s block rest ihb ihr =>
    obtain ⟨ht, -, hblock, hrest⟩ := hb
    refine Moves.bind ?_ fun c => ?_
    · rw [Target.holds_eq]
      refine P.resolve_bind ht fun r a ha => ?_
      exact P.shown r (.read ⟨a, k⟩ (some (m.location s))) ⟨ha, rfl⟩ rfl
    · cases c with
      | true => exact Moves.andThen (ihb hblock) (ihr hrest)
      | false => exact ihr hrest

/-- Every evaluation of a call follows the preorder, however it ends. -/
theorem invoke (P : Progress o p T) (hm : ∀ g ∈ m.functions, g.body.AllObjects p) (calls : Nat)
    (c : CallableId) (l : Location) : Moves T (invoke m o calls c l) := by
  induction calls generalizing c l with
  | zero => exact P.refl
  | succ calls ih =>
    unfold Independence.invoke
    cases hg : m.function? c with
    | none => exact P.refl
    | some g =>
      have hbody := P.body (m := m) ih (hm g (List.mem_of_getElem? hg))
      intro r
      rw [finalState_framed]
      exact P.framed r _ c (hbody _)

end Progress

namespace Model

theorem finalState_evaluate (o : Observer σ) (call : Call) (s : σ) (m : Model) :
    finalState (Model.evaluate o call (s, m)) =
      let r := finalState (invoke m o (maxCallDepth + 1) call.callee call.location (.start s m.nextObject))
      (r.observer, m.afterRun r) := by
  simp only [Model.evaluate]
  cases invoke m o (maxCallDepth + 1) call.callee call.location (.start s m.nextObject) <;> rfl

/-- The observer's state keeps what every answer keeps. -/
theorem observer_evaluate {I : σ → Prop} (hI : ∀ e s, I s → I (o.answer e s).2) (call : Call) {s : σ} (hs : I s)
    (m : Model) : I (finalState (Model.evaluate o call (s, m))).1 := by
  have P : Progress o (fun _ => True) fun r t => I r.observer → I t.observer :=
    { refl := fun _ h => h
      trans := fun hrs hst h => hst (hrs h)
      shown := fun _ e _ _ h => hI e _ h
      stored := fun _ _ _ _ _ _ _ h => h
      allocated := fun _ h => h
      noted := fun _ _ h => h
      framed := fun _ _ _ hin h => hI _ _ (hin (hI _ _ h)) }
  rw [finalState_evaluate]
  exact P.invoke (fun g _ => g.body.allObjects_of_forall fun _ => trivial) _ call.callee call.location _ hs

/-- An evaluation changes nothing about the model but its counters, and hands out numbers in ascending order. -/
theorem model_evaluate (o : Observer σ) (call : Call) (s : σ) (m : Model) :
    let m' := (finalState (Model.evaluate o call (s, m))).2
    m' = { m with nextObject := m'.nextObject, evaluations := m.evaluations + 1 } ∧
      m.nextObject ≤ m'.nextObject := by
  have P : Progress o (fun _ => True) fun r t => r.nextObject ≤ t.nextObject :=
    { refl := fun _ => Nat.le_refl _
      trans := Nat.le_trans
      shown := fun _ _ _ _ => Nat.le_refl _
      stored := fun _ _ _ _ _ _ _ => Nat.le_refl _
      allocated := fun _ => Nat.le_succ _
      noted := fun _ _ => Nat.le_refl _
      framed := fun _ _ _ hin => hin }
  have h := P.invoke (m := m) (fun g _ => g.body.allObjects_of_forall fun _ => trivial) (maxCallDepth + 1)
    call.callee call.location (.start s m.nextObject)
  rw [finalState_evaluate]
  exact ⟨rfl, h⟩

end Model

end Independence
