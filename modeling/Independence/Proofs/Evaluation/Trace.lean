import Independence.Proofs.Evaluation.Simulation
/-!
# Evaluations as traces

An observer learns of an evaluation through its events alone. So an evaluation is a trace: an outcome and the
events on the way. Whatever observer watches, an evaluation that it does not abort has the outcome of the
trace, and the observer ends in the state to which the events lead it.
-/

namespace Independence

variable {σ τ α β ε : Type}

/-- The state in which a computation ended, whichever way it ended. -/
def finalState : EStateM.Result ε σ α → σ
  | .ok _ s | .error _ s => s

/-- An outcome with another value and another state. -/
def mapOutcome (g : α → β) (h : σ → τ) : EStateM.Result ε σ α → EStateM.Result ε τ β
  | .ok a s => .ok (g a) (h s)
  | .error e s => .error e (h s)

/-- A computation that is seen to succeed has a result that was seen. -/
theorem exists_ok {x : EStateM.Result ε σ α} (p : α → σ → Bool)
    (h : (match x with | .ok a s => p a s | .error _ _ => false) = true) : ∃ a s, x = .ok a s ∧ p a s = true := by
  cases x with
  | ok a s => exact ⟨a, s, rfl, h⟩
  | error e s => cases h

namespace Observer

/-- Keeps the events in order and lets everything pass. -/
def trace : Observer (List Event) := ⟨fun e es => (.proceed, es ++ [e])⟩

/-- The state to which events lead an observer. -/
def after (o : Observer σ) (s : σ) (es : List Event) : σ := es.foldl (fun s e => (o.answer e s).2) s

/-- The observer answers no side effect with an abort. -/
def Permissive (o : Observer σ) : Prop := ∀ e s, (o.answer (.sideEffect e) s).1 = .proceed

theorem after_append (o : Observer σ) (s : σ) (es fs : List Event) :
    o.after s (es ++ fs) = o.after (o.after s es) fs := List.foldl_append

theorem after_singleton (o : Observer σ) (s : σ) (e : Event) : o.after s [e] = (o.answer e s).2 := rfl

end Observer

/-- The run with another observer's state in place of its own. -/
def Run.watchedBy (r : Run σ) (t : τ) : Run τ := ⟨t, r.nextObject, r.created, r.writes, r.mayThrow, r.locals⟩

/-- `y` does under the trace what `x` does under `o`: either `o` aborts `x`, or the two agree but for their
observers, who saw the same events. -/
def Traced (o : Observer σ) {α β : Type} (g : α → β) (x : Eval σ α) (y : Eval (List Event) β) : Prop :=
  ∀ (r : Run σ) (es : List Event), (¬ o.Permissive ∧ ∃ s, x r = .error .aborted s) ∨
    ∃ new, y (r.watchedBy es) = mapOutcome g (fun s => s.watchedBy (es ++ new)) (x r) ∧
      (finalState (x r)).observer = o.after r.observer new

theorem Traced.of_silent {o : Observer σ} {g : α → β} {x : Eval σ α} {y : Eval (List Event) β}
    (hx : ∀ r es, y (r.watchedBy es) = mapOutcome g (fun s => s.watchedBy es) (x r))
    (ho : ∀ r, (finalState (x r)).observer = r.observer) : Traced o g x y := by
  intro r es
  refine .inr ⟨[], ?_, ho r⟩
  simpa using hx r es

theorem Traced.announce (o : Observer σ) (e : SideEffect) :
    Traced o id (announce o e) (announce .trace e) := by
  intro r es
  cases h : o.answer (.sideEffect e) r.observer with
  | mk d t =>
    cases d with
    | abort =>
      refine .inl ⟨fun hp => ?_, { r with observer := t }, ?_⟩
      · have := hp e r.observer
        simp [h] at this
      · simp [Independence.announce, h]
    | proceed =>
      refine .inr ⟨[.sideEffect e], ?_, ?_⟩
      · simp [Independence.announce, h, Observer.trace, mapOutcome, Run.watchedBy]
      · simp [Independence.announce, h, finalState, Observer.after_singleton]

theorem Traced.bind {o : Observer σ} {α β γ δ : Type} {g : α → β} {h : γ → δ} {x : Eval σ α}
    {y : Eval (List Event) β} {k : α → Eval σ γ} {l : β → Eval (List Event) δ}
    (hx : Traced o g x y) (hk : ∀ a, Traced o h (k a) (l (g a))) : Traced o h (x >>= k) (y >>= l) := by
  intro r es
  simp only [Bind.bind, EStateM.bind]
  rcases hx r es with ⟨hp, s, hs⟩ | ⟨new, hy, hn⟩
  · exact .inl ⟨hp, s, by rw [hs]⟩
  · cases hr : x r with
    | error e s =>
      rw [hr] at hy hn
      exact .inr ⟨new, by rw [hy]; rfl, hn⟩
    | ok a s =>
      rw [hr] at hy hn
      simp only [hy, mapOutcome]
      rcases hk a s (es ++ new) with ⟨hp, t, ht⟩ | ⟨more, hl, hm⟩
      -- Aborted in the second part, the whole is aborted; otherwise the events add up.
      · exact .inl ⟨hp, t, ht⟩
      · refine .inr ⟨new ++ more, ?_, ?_⟩
        · rw [hl, List.append_assoc]
          rfl
        · rw [hm, Observer.after_append]
          exact congrArg (o.after · more) hn

theorem Traced.framed {o : Observer σ} (c : CallableId) {x : Eval σ Flow} {y : Eval (List Event) Flow}
    (hx : Traced o id x y) : Traced o id (framed o c x) (framed .trace c y) := by
  intro r es
  have hin := hx { r.observe o (.enter c) with locals := #[] } (es ++ [.enter c])
  have henter : ({ (r.watchedBy es).observe .trace (.enter c) with locals := #[] } : Run (List Event)) =
      Run.watchedBy { r.observe o (.enter c) with locals := #[] } (es ++ [.enter c]) := rfl
  simp only [Independence.framed, henter]
  rcases hin with ⟨hp, s, hs⟩ | ⟨new, hy, hn⟩
  · rw [hs]
    exact .inl ⟨hp, _, rfl⟩
  · refine .inr ⟨.enter c :: (new ++ [.exit c]), ?_, ?_⟩
    · rw [hy]
      cases x { r.observe o (.enter c) with locals := #[] } <;>
        simp [mapOutcome, Run.watchedBy, Run.observe, Observer.trace]
    · have hleave : o.after r.observer (.enter c :: (new ++ [.exit c])) =
          (o.answer (.exit c) (o.after (o.answer (.enter c) r.observer).2 new)).2 := by
        simp [Observer.after]
      rw [hleave]
      have hn : (finalState (x { r.observe o (.enter c) with locals := #[] })).observer =
          o.after (o.answer (.enter c) r.observer).2 new := hn
      rw [← hn]
      cases x { r.observe o (.enter c) with locals := #[] } <;> rfl

theorem Traced.resolve {o : Observer σ} (t : Target) (l : Location) :
    Traced o id (t.resolve l) (t.resolve l) := by
  cases t with
  | object a => exact .of_silent (fun _ _ => rfl) fun _ => rfl
  | allocated n =>
    refine .of_silent (fun r es => ?_) fun r => ?_
    · rw [Target.resolve_allocated, Target.resolve_allocated]
      simp only [Run.watchedBy]
      cases r.locals[n]? <;> rfl
    · rw [Target.resolve_allocated]
      cases r.locals[n]? <;> rfl

theorem Traced.announceWrite {o : Observer σ} (b : Binding) (l : Location) :
    Traced o id (announceWrite o b l) (announceWrite .trace b l) := by
  intro r es
  have hcreated : (r.watchedBy es).created = r.created := rfl
  simp only [Independence.announceWrite, hcreated]
  cases r.created.contains b.object with
  | true => exact .inr ⟨[], by simp [mapOutcome], rfl⟩
  | false => exact Traced.announce o _ r es

theorem Traced.openWrite {o : Observer σ} (t : Target) (k : Key) (l : Location) :
    Traced o id (openWrite o t k l) (openWrite .trace t k l) :=
  .bind (.resolve t l) fun a => .bind (.announceWrite ⟨a, k⟩ l) fun _ => .of_silent (fun _ _ => rfl) fun _ => rfl

/-- Evaluations under an observer and under the trace are in lockstep. -/
theorem simulation_trace (m : Model) (o : Observer σ) : Simulation m m o .trace id (@Traced σ o) where
  pure g a := .of_silent (fun _ _ => rfl) fun _ => rfl
  throw g e _ := .of_silent (fun _ _ => rfl) fun _ => rfl
  bind := Traced.bind
  framed c _ _ := Traced.framed c
  resolve t l _ := Traced.resolve t l
  notify e _ _ := by
    rw [Event.rename_id]
    exact fun _ _ => .inr ⟨[e], rfl, rfl⟩
  assign name l := Traced.announce o _
  openWrite t k l _ := Traced.openWrite t k l
  storeWrite b s := by
    rw [WriteSite.rename_id]
    exact .of_silent (fun _ _ => rfl) fun _ => rfl
  allocate := .of_silent (fun _ _ => rfl) fun _ => rfl
  noteThrow a := .of_silent (fun _ _ => rfl) fun _ => rfl
  readIs b l v _ := fun _ _ => .inr ⟨[.read b (some l)], rfl, rfl⟩

theorem traced_invoke (m : Model) (o : Observer σ) (calls : Nat) (c : CallableId) (l : Location) :
    Traced o id (invoke m o calls c l) (invoke m .trace calls c l) :=
  (simulation_trace m o).invoke rfl rfl (fun g _ => g.body.allObjects_of_forall fun _ => rfl) calls c l

namespace Model

/-- The evaluation of a call with its events in place of an observer's state. -/
def traceOf (m : Model) (call : Call) : EStateM.Result EvalError (List Event × Model) Effects :=
  Model.evaluate .trace call ([], m)

/-- Unless the observer aborts it, an evaluation has the outcome of the trace and leaves the observer where the
events lead it. -/
theorem evaluate_eq_traceOf (o : Observer σ) (call : Call) (s : σ) (m : Model) :
    (¬ o.Permissive ∧ ∃ t, Model.evaluate o call (s, m) = .error .aborted t) ∨
      Model.evaluate o call (s, m) = mapOutcome id (fun p => (o.after s p.1, p.2)) (m.traceOf call) := by
  have hrun := traced_invoke m o (maxCallDepth + 1) call.callee call.location (.start s m.nextObject) []
  have hstart : (Run.start s m.nextObject).watchedBy [] = Run.start ([] : List Event) m.nextObject := rfl
  rw [hstart] at hrun
  simp only [traceOf, Model.evaluate]
  rcases hrun with ⟨hp, t, ht⟩ | ⟨new, hy, hn⟩
  · exact .inl ⟨hp, _, by rw [ht]⟩
  · right
    rw [hy]
    cases hx : invoke m o (maxCallDepth + 1) call.callee call.location (.start s m.nextObject) with
    | ok flow r =>
      rw [hx] at hn
      have hobs : r.observer = o.after s new := hn
      simp only [mapOutcome, hobs]
      rfl
    | error e r =>
      rw [hx] at hn
      have hobs : r.observer = o.after s new := hn
      simp only [mapOutcome, hobs]
      rfl

/-- A permissive observer sees the trace. -/
theorem evaluate_of_permissive {o : Observer σ} (ho : o.Permissive) (call : Call) (s : σ) (m : Model) :
    Model.evaluate o call (s, m) = mapOutcome id (fun p => (o.after s p.1, p.2)) (m.traceOf call) :=
  (evaluate_eq_traceOf o call s m).resolve_left fun h => h.1 ho

/-- An evaluation that returns effects has them as its trace has. -/
theorem traceOf_of_evaluate_ok {o : Observer σ} {call : Call} {s t : σ} {m n : Model} {e : Effects}
    (h : Model.evaluate o call (s, m) = .ok e (t, n)) :
    ∃ es, m.traceOf call = .ok e (es, n) ∧ t = o.after s es := by
  rcases evaluate_eq_traceOf o call s m with ⟨-, u, hu⟩ | he
  · rw [hu] at h
    cases h
  · rw [h] at he
    cases ht : m.traceOf call with
    | ok e' p =>
      rw [ht] at he
      simp only [mapOutcome, id_eq, EStateM.Result.ok.injEq, Prod.mk.injEq] at he
      obtain ⟨rfl, rfl, rfl⟩ := he
      exact ⟨p.1, rfl, rfl⟩
    | error e' p =>
      rw [ht] at he
      cases he

end Model

end Independence
