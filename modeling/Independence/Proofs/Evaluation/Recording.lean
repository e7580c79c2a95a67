import Independence.Proofs.Evaluation.Progress
import Independence.Analysis.Capture
/-!
# Recorded evaluations

To record the events of an evaluation changes nothing about it: an observer that records them as well gives the same
answers, also the one that aborts. So what an observer was told is known on every exit. The observer of a capture keeps
pending what the events registered, in order.
-/

namespace Independence

variable {σ τ α β γ δ : Type} {o : Observer σ} {o' : Observer τ} {h : σ → τ}

/-! ## One observer in terms of another -/

/-- By `h` the states of `o` tell those of `o'`, and the two give the same answers. -/
def Observer.Determines (o : Observer σ) (o' : Observer τ) (h : σ → τ) : Prop :=
  ∀ e s, o'.answer e (h s) = ((o.answer e s).1, h (o.answer e s).2)

/-- The run as seen by the other observer. -/
def Run.seenThrough (h : σ → τ) (r : Run σ) : Run τ := r.watchedBy (h r.observer)

/-- `y` does for one observer what `x` does for the other. -/
def Seen (h : σ → τ) {α β : Type} (g : α → β) (x : Eval σ α) (y : Eval τ β) : Prop :=
  ∀ r, y (r.seenThrough h) = mapOutcome g (Run.seenThrough h) (x r)

namespace Seen

theorem bind {g : α → β} {k : γ → δ} {x : Eval σ α} {y : Eval τ β} {f : α → Eval σ γ} {f' : β → Eval τ δ}
    (hx : Seen h g x y) (hf : ∀ a, Seen h k (f a) (f' (g a))) : Seen h k (x >>= f) (y >>= f') := by
  intro r
  simp only [Bind.bind, EStateM.bind, hx r]
  cases x r with
  | ok a s => exact hf a s
  | error e s => rfl

theorem resolve (t : Target) (l : Location) : Seen h id (t.resolve l) (t.resolve l) := by
  intro r
  cases t with
  | object a => rfl
  | allocated n =>
    rw [Target.resolve_allocated, Target.resolve_allocated]
    simp only [Run.seenThrough, Run.watchedBy]
    cases r.locals[n]? <;> rfl

section Determined
variable (ho : o.Determines o' h)
include ho

theorem observe (e : Event) (r : Run σ) : (r.seenThrough h).observe o' e = (r.observe o e).seenThrough h := by
  simp [Run.observe, Run.seenThrough, Run.watchedBy, ho e]

theorem notify (e : Event) : Seen h id (notify o e) (notify o' e) := by
  intro r
  exact congrArg (EStateM.Result.ok ()) (observe ho e r)

theorem announce (e : SideEffect) : Seen h id (announce o e) (announce o' e) := by
  intro r
  have he := ho (.sideEffect e) r.observer
  simp only [Independence.announce, Run.seenThrough, Run.watchedBy, he]
  cases (o.answer (.sideEffect e) r.observer).1 <;> rfl

theorem announceWrite (b : Binding) (l : Location) : Seen h id (announceWrite o b l) (announceWrite o' b l) := by
  intro r
  have hcreated : (r.seenThrough h).created = r.created := rfl
  simp only [Independence.announceWrite, hcreated]
  cases r.created.contains b.object with
  | true => rfl
  | false => exact announce ho _ r

theorem openWrite (t : Target) (k : Key) (l : Location) : Seen h id (openWrite o t k l) (openWrite o' t k l) :=
  bind (resolve t l) fun a => bind (announceWrite ho ⟨a, k⟩ l) fun _ _ => rfl

theorem framed (c : CallableId) {x : Eval σ Flow} {y : Eval τ Flow} (hx : Seen h id x y) :
    Seen h id (framed o c x) (framed o' c y) := by
  intro r
  have henter : ({ (r.seenThrough h).observe o' (.enter c) with locals := #[] } : Run τ) =
      Run.seenThrough h { r.observe o (.enter c) with locals := #[] } := by
    rw [observe ho]
    rfl
  simp only [Independence.framed, henter, hx { r.observe o (.enter c) with locals := #[] }]
  cases x { r.observe o (.enter c) with locals := #[] } <;> simp only [mapOutcome, observe ho] <;> rfl

/-- Evaluations under the two observers are in lockstep. -/
theorem simulation (m : Model) : Simulation m m o o' id (@Seen σ τ h) where
  pure g a _ := rfl
  throw g e _ _ := rfl
  bind := Seen.bind
  framed c _ _ := framed ho c
  resolve t l _ := resolve t l
  notify e _ _ := by
    rw [Event.rename_id]
    exact notify ho e
  assign name l := announce ho _
  openWrite t k l _ := openWrite ho t k l
  storeWrite b s := by
    rw [WriteSite.rename_id]
    exact fun _ => rfl
  allocate _ := rfl
  noteThrow a _ := rfl
  readIs b l v _ := bind (notify ho (.read b (some l))) fun _ _ => rfl

end Determined

end Seen

/-- An evaluation under one observer is that under the other one, with its states translated. -/
theorem Model.evaluate_of_determines (ho : o.Determines o' h) (call : Call) (s : σ) (m : Model) :
    Model.evaluate o' call (h s, m) = mapOutcome id (fun p => (h p.1, p.2)) (Model.evaluate o call (s, m)) := by
  have hrun := (Seen.simulation ho m).invoke rfl rfl (fun g _ => g.body.allObjects_of_forall fun _ => rfl)
    (maxCallDepth + 1) call.callee call.location (.start s m.nextObject)
  have hstart : (Run.start s m.nextObject).seenThrough h = Run.start (h s) m.nextObject := rfl
  rw [hstart] at hrun
  simp only [Model.evaluate, hrun]
  cases invoke m o (maxCallDepth + 1) call.callee call.location (.start s m.nextObject) <;> rfl

/-- Recording the events changes nothing else about an evaluation. -/
theorem Model.evaluate_recording (o : Observer σ) (call : Call) (s : σ) (events : Array Event) (m : Model) :
    Model.evaluate o call (s, m) =
      mapOutcome id (fun p => (p.1.1, p.2)) (Model.evaluate o.recording call ((s, events), m)) :=
  Model.evaluate_of_determines (o := o.recording) (h := Prod.fst) (fun _ _ => rfl) call (s, events) m

/-! ## Registrations -/

/-- The requests that the events register, in order. -/
def registrations (es : List Event) : List Request := es.filterMap fun
  | .register r => some r
  | .sideEffect _ | .read _ _ | .enumerate _ _ | .enter _ | .exit _ => none

/-- While a capture is watched, the traversal changes in nothing but that what is registered becomes pending. -/
theorem traversal_captureObserver (name : String) (call : Call) (w : Watch) (m : Model) :
    let x := Model.evaluate (captureObserver name).recording call ((w, #[]), m)
    (finalState x).1.1.traversal =
      { w.traversal with pending := w.traversal.pending ++ registrations (finalState x).1.2.toList } := by
  refine Model.observer_evaluate (I := fun p : Watch × Array Event => p.1.traversal =
    { w.traversal with pending := w.traversal.pending ++ registrations p.2.toList }) ?_ call (by simp [registrations]) m
  rintro e ⟨v, events⟩ hv
  have hv : v.traversal = { w.traversal with pending := w.traversal.pending ++ registrations events.toList } := hv
  cases e with
  | register r =>
    simp only [Observer.recording, captureObserver, Traversal.register, hv]
    simp [registrations]
  | _ => simpa [Observer.recording, captureObserver, registrations] using hv

end Independence
