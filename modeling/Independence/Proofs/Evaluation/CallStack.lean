import Independence.Proofs.Evaluation.Course
/-!
# The call stack in the events

The starts and ends of calls among the events of an evaluation are well nested, on every exit. So who follows the events
knows at each step which bodies are running.
-/

namespace Independence

open Chronicle

/-- The calls open after the event, innermost first, if those of `calls` are open before it. Nothing if the event opens
one more than `limit`, or ends a call other than the one opened last. -/
def Event.nest? (limit : Nat) (calls : List CallableId) : Event → Option (List CallableId)
  | .enter f => if calls.length < limit then some (f :: calls) else none
  | .exit f => if calls.head? = some f then some calls.tail else none
  | .sideEffect _ | .register _ | .read _ _ | .enumerate _ _ => some calls

/-- The calls open after the events. Nothing if their calls are not well nested or if more than `limit` are open at
once. -/
def openAfter? (limit : Nat) (calls : List CallableId) (es : List Event) : Option (List CallableId) :=
  es.foldlM (Event.nest? limit) calls

namespace Chronicle

/-- The step starts or ends a call. -/
def Step.isCall : Step → Bool
  | .event e => e.isCall
  | .op _ | .loop _ | .branch _ _ _ _ => false

/-- The callables whose bodies are running at the step, if those of `calls` were before it. A body that ends is running
still, one that starts is running already. -/
def Step.running (calls : List CallableId) : Step → List CallableId
  | .event (.enter f) => f :: calls
  | .event _ | .op _ | .loop _ | .branch _ _ _ _ => calls

/-- The calls open after the entry, if those of `calls` are open before it. Nothing if they are not the ones that the
entry has for the running ones. -/
def Entry.nest? (limit : Nat) (calls : List CallableId) (x : Entry) : Option (List CallableId) :=
  if x.calls = x.step.running calls then openAfter? limit calls x.step.event?.toList else none

/-- The calls open after the chronicle. Nothing if they are not well nested, or if an entry does not have the open calls
for the running ones. -/
def nest? (limit : Nat) (calls : List CallableId) (c : Chronicle) : Option (List CallableId) :=
  c.foldlM (Entry.nest? limit) calls

variable {m : Model} {limit more : Nat} {calls after : List CallableId} {c es : Chronicle} {ending : Ending}

theorem nest?_append (c d : Chronicle) (calls : List CallableId) :
    nest? limit calls (c ++ d) = (nest? limit calls c).bind fun calls => nest? limit calls d := List.foldlM_append

theorem nest?_cons (x : Entry) (c : Chronicle) (calls : List CallableId) :
    nest? limit calls (x :: c) = (x.nest? limit calls).bind fun calls => nest? limit calls c := List.foldlM_cons

theorem Step.running_of_isCall_eq_false {step : Step} (h : step.isCall = false) : step.running calls = calls := by
  cases step with
  | event e => cases e <;> first | rfl | cases h
  | _ => rfl

theorem Step.isCall_of_isPlain {step : Step} (h : step.isPlain = true) : step.isCall = false := by
  cases step with
  | event e => cases e <;> first | rfl | cases h
  | _ => rfl

theorem Entry.nest?_of_isCall_eq_false {step : Step} (h : step.isCall = false) :
    Entry.nest? limit calls ⟨step, calls⟩ = some calls := by
  rw [Entry.nest?, if_pos (Step.running_of_isCall_eq_false h).symm]
  cases step with
  | event e => cases e <;> first | rfl | cases h
  | _ => rfl

/-- A call whose body leaves the calls as they were leaves its caller's as they were. -/
theorem nest?_called (f : CallableId) (hlimit : calls.length < limit)
    (hc : nest? limit (f :: calls) c = some (f :: calls)) : nest? limit calls (called f calls c) = some calls := by
  have henter : Entry.nest? limit calls ⟨.event (.enter f), f :: calls⟩ = some (f :: calls) := by
    simp [Entry.nest?, Step.running, Step.event?, openAfter?, Event.nest?, hlimit]
  have hexit : Entry.nest? limit (f :: calls) ⟨.event (.exit f), f :: calls⟩ = some calls := by
    simp [Entry.nest?, Step.running, Step.event?, openAfter?, Event.nest?]
  simp only [called, nest?_cons, nest?_append, henter, hc, hexit, Option.bind_some]
  rfl

/-- Whatever a body does, when it ends the calls are open that were open when it started. -/
theorem Course.nest? (h : Course m more calls c ending) (hlimit : calls.length + more ≤ limit) :
    nest? limit calls c = some calls := by
  induction h with
  | done | failed => rfl
  | throws span | returns v => rw [nest?_cons, Entry.nest?_of_isCall_eq_false rfl]; rfl
  | plain hstep _ ih =>
    rw [nest?_cons, Entry.nest?_of_isCall_eq_false (Step.isCall_of_isPlain hstep)]
    exact ih hlimit
  | call f _ _ _ ihinner ih =>
    rw [nest?_append, nest?_called f (by omega) (ihinner (by rw [List.length_cons]; omega))]
    exact ih hlimit
  | leave f _ _ ih => exact nest?_called f (by omega) (ih (by rw [List.length_cons]; omega))

/-- Who sees only the events follows the calls as well. -/
theorem openAfter?_told (h : nest? limit calls c = some after) : openAfter? limit calls (told c) = some after := by
  induction c generalizing calls with
  | nil => exact h
  | cons x c ih =>
    rw [nest?_cons] at h
    obtain ⟨next, hx, hc⟩ := Option.bind_eq_some_iff.1 h
    have hx : openAfter? limit calls x.step.event?.toList = some next := (Option.ite_none_right_eq_some.1 hx).2
    rw [told_cons, openAfter?, List.foldlM_append, ← openAfter?, hx]
    exact ih hc

/-- The callables that are running at an entry are those whose calls the events before it left open. -/
theorem openAfter?_before {before rest : Chronicle} {step : Step} {running : List CallableId}
    (h : nest? limit calls (before ++ ⟨step, running⟩ :: rest) = some after) (hstep : step.isCall = false) :
    openAfter? limit calls (told before) = some running := by
  rw [nest?_append] at h
  obtain ⟨next, hbefore, h⟩ := Option.bind_eq_some_iff.1 h
  rw [nest?_cons] at h
  obtain ⟨_, hx, -⟩ := Option.bind_eq_some_iff.1 h
  have hrunning : running = step.running next := (Option.ite_none_right_eq_some.1 hx).1
  rw [hrunning, Step.running_of_isCall_eq_false hstep]
  exact openAfter?_told hbefore

end Chronicle

/-- The chronicle of an evaluation is that of a call of the callee, or empty if the callee is unknown. -/
theorem Model.chronicle_called {σ : Type} (o : Observer σ) (call : Call) (s : σ) (m : Model) :
    let log := (finalState (Model.chronicle o call ((s, []), m))).1.2
    log = [] ∨ ∃ inner ending, log = called call.callee [] inner ∧ Course m maxCallDepth [call.callee] inner ending := by
  have h := Charts.invokeChronicled (m := m) (o := o) (maxCallDepth + 1) [] call.callee call.location
    (.start (s, []) m.nextObject)
  simp only [Model.chronicle]
  cases hx : invokeChronicled m o (maxCallDepth + 1) [] call.callee call.location (.start (s, []) m.nextObject)
  all_goals
    rw [hx] at h
    rcases h with ⟨-, hlogs⟩ | ⟨less, inner, hless, hlogs, hcourse⟩
    · exact .inl hlogs.log
    · obtain rfl : less = maxCallDepth := by omega
      exact .inr ⟨inner, _, hlogs.log, hcourse⟩

/-- The calls in a chronicle are well nested: each end names the callable of its start, no more than `limit` are open at
once, and none is left open. At every other step the open calls are those whose bodies are running. -/
structure Chronicle.Nested (limit : Nat) (log : Chronicle) : Prop where
  closed : openAfter? limit [] (told log) = some []
  running : ∀ (before : Chronicle) (step : Step) (calls : List CallableId) (rest : Chronicle),
    log = before ++ ⟨step, calls⟩ :: rest → step.isCall = false → openAfter? limit [] (told before) = some calls

theorem Model.nest?_chronicle {σ : Type} (o : Observer σ) (call : Call) (s : σ) (m : Model) :
    nest? (maxCallDepth + 1) [] (finalState (Model.chronicle o call ((s, []), m))).1.2 = some [] := by
  rcases Model.chronicle_called o call s m with h | ⟨inner, ending, h, hcourse⟩
  · rw [h]
    rfl
  · rw [h]
    exact nest?_called _ (Nat.succ_pos _) (hcourse.nest? (by simp [Nat.add_comm]))

/-- The calls in the chronicle of an evaluation are well nested, however it ends. -/
theorem Model.nested_chronicle {σ : Type} (o : Observer σ) (call : Call) (s : σ) (m : Model) :
    (finalState (Model.chronicle o call ((s, []), m))).1.2.Nested (maxCallDepth + 1) where
  closed := openAfter?_told (Model.nest?_chronicle o call s m)
  running _ _ _ _ hlog hstep := openAfter?_before (hlog ▸ Model.nest?_chronicle o call s m) hstep

end Independence
