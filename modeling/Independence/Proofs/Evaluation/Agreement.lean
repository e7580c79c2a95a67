import Independence.Proofs.Evaluation.Progress
/-!
# Evaluations under observers that agree

An evaluation takes the same course under two observers that give the same answers, whatever else they keep in their
states. Where the first one may also abort at a side effect that the second one lets pass, either it aborts the evaluation
or the course is the same.
-/

namespace Independence

variable {σ τ α β γ δ : Type} {o : Observer σ} {o' : Observer τ} {gives : Prop} {R : σ → τ → Prop}

/-- In states that `R` relates the two give the same answer to an event, and their states stay related. The exception, if
it is allowed by `gives`, is a side effect at which the first one aborts. -/
def Observer.Agrees (gives : Prop) (R : σ → τ → Prop) (o : Observer σ) (o' : Observer τ) : Prop :=
  ∀ (e : Event) (s : σ) (t : τ), R s t →
    (o'.answer e t).1 = (o.answer e s).1 ∧ R (o.answer e s).2 (o'.answer e t).2 ∨
    gives ∧ (∃ x, e = .sideEffect x) ∧ (o.answer e s).1 = .abort

/-- `y` does what `x` does but for the observers, whose states stay related, or `x` is aborted and that is allowed. -/
def Concurs (gives : Prop) (R : σ → τ → Prop) {α β : Type} (g : α → β) (x : Eval σ α) (y : Eval τ β) : Prop :=
  ∀ (r : Run σ) (t : τ), R r.observer t → (gives ∧ ∃ s, x r = .error .aborted s) ∨
    ∃ t', R (finalState (x r)).observer t' ∧ y (r.watchedBy t) = mapOutcome g (·.watchedBy t') (x r)

namespace Concurs

/-- A step that no observer is told of. -/
theorem of_silent {g : α → β} {x : Eval σ α} {y : Eval τ β}
    (hx : ∀ r t, y (r.watchedBy t) = mapOutcome g (·.watchedBy t) (x r))
    (ho : ∀ r, (finalState (x r)).observer = r.observer) : Concurs gives R g x y :=
  fun r t hr => .inr ⟨t, (ho r).symm ▸ hr, hx r t⟩

theorem bind {g : α → β} {h : γ → δ} {x : Eval σ α} {y : Eval τ β} {k : α → Eval σ γ} {l : β → Eval τ δ}
    (hx : Concurs gives R g x y) (hk : ∀ a, Concurs gives R h (k a) (l (g a))) :
    Concurs gives R h (x >>= k) (y >>= l) := by
  intro r t hr
  simp only [Bind.bind, EStateM.bind]
  rcases hx r t hr with ⟨hgives, s, hs⟩ | ⟨t', ht', hy⟩
  · exact .inl ⟨hgives, s, by rw [hs]⟩
  · rw [hy]
    cases hxr : x r with
    | error e s =>
      rw [hxr] at ht'
      exact .inr ⟨t', ht', rfl⟩
    | ok a s =>
      rw [hxr] at ht'
      exact hk a s t' ht'

theorem resolve (t : Target) (l : Location) : Concurs gives R id (t.resolve l) (t.resolve l) := by
  cases t with
  | object a => exact of_silent (fun _ _ => rfl) fun _ => rfl
  | allocated n =>
    refine of_silent (fun r t => ?_) fun r => ?_
    · rw [Target.resolve_allocated, Target.resolve_allocated]
      simp only [Run.watchedBy]
      cases r.locals[n]? <;> rfl
    · rw [Target.resolve_allocated]
      cases r.locals[n]? <;> rfl

section Watched
variable (ho : o.Agrees gives R o')
include ho

/-- The first one does not abort at anything but a side effect. -/
theorem related_of_plain {e : Event} (he : ∀ x, e ≠ .sideEffect x) {s : σ} {t : τ} (h : R s t) :
    R (o.answer e s).2 (o'.answer e t).2 := by
  rcases ho e s t h with ⟨-, hR⟩ | ⟨-, ⟨x, hx⟩, -⟩
  · exact hR
  · exact absurd hx (he x)

theorem notify {e : Event} (he : ∀ x, e ≠ .sideEffect x) : Concurs gives R id (notify o e) (notify o' e) :=
  fun _ t hr => .inr ⟨(o'.answer e t).2, related_of_plain ho he hr, rfl⟩

theorem announce (e : SideEffect) : Concurs gives R id (announce o e) (announce o' e) := by
  intro r t hr
  rcases ho (.sideEffect e) r.observer t hr with ⟨hanswer, hR⟩ | ⟨hgives, -, habort⟩
  · refine .inr ⟨(o'.answer (.sideEffect e) t).2, ?_, ?_⟩
    · rw [finalState_announce]
      exact hR
    · simp only [Independence.announce, Run.watchedBy, hanswer]
      cases (o.answer (.sideEffect e) r.observer).1 <;> rfl
  · refine .inl ⟨hgives, r.observe o (.sideEffect e), ?_⟩
    simp only [Independence.announce, habort]
    rfl

theorem announceWrite (b : Binding) (l : Location) : Concurs gives R id (announceWrite o b l) (announceWrite o' b l) := by
  intro r t hr
  have hcreated : (r.watchedBy t).created = r.created := rfl
  simp only [Independence.announceWrite, hcreated]
  cases r.created.contains b.object with
  | true => exact .inr ⟨t, hr, rfl⟩
  | false => exact announce ho _ r t hr

theorem openWrite (t : Target) (k : Key) (l : Location) : Concurs gives R id (openWrite o t k l) (openWrite o' t k l) :=
  bind (resolve t l) fun a => bind (announceWrite ho ⟨a, k⟩ l) fun _ => of_silent (fun _ _ => rfl) fun _ => rfl

theorem framed (c : CallableId) {x : Eval σ Flow} {y : Eval τ Flow} (hx : Concurs gives R id x y) :
    Concurs gives R id (framed o c x) (framed o' c y) := by
  intro r t hr
  have henter : ({ (r.watchedBy t).observe o' (.enter c) with locals := #[] } : Run τ) =
      Run.watchedBy { r.observe o (.enter c) with locals := #[] } (o'.answer (.enter c) t).2 := rfl
  simp only [Independence.framed, henter]
  rcases hx { r.observe o (.enter c) with locals := #[] } _ (related_of_plain ho (by simp) hr) with
    ⟨hgives, s, hs⟩ | ⟨t', ht', hy⟩
  · rw [hs]
    exact .inl ⟨hgives, _, rfl⟩
  · rw [hy]
    cases hxr : x { r.observe o (.enter c) with locals := #[] }
    all_goals
      rw [hxr] at ht'
      exact .inr ⟨(o'.answer (.exit c) t').2, related_of_plain ho (by simp) ht', rfl⟩

/-- Evaluations under the two observers are in lockstep. -/
theorem simulation (m : Model) : Simulation m m o o' id (@Concurs σ τ gives R) where
  pure _ _ := of_silent (fun _ _ => rfl) fun _ => rfl
  throw _ _ _ := of_silent (fun _ _ => rfl) fun _ => rfl
  bind := bind
  framed c _ _ := framed ho c
  resolve t l _ := resolve t l
  notify e he _ := by
    rw [Event.rename_id]
    exact notify ho he
  assign _ _ := announce ho _
  openWrite t k l _ := openWrite ho t k l
  storeWrite b s := by
    rw [WriteSite.rename_id]
    exact of_silent (fun _ _ => rfl) fun _ => rfl
  allocate := of_silent (fun _ _ => rfl) fun _ => rfl
  noteThrow _ := of_silent (fun _ _ => rfl) fun _ => rfl
  readIs b l v _ := bind (notify ho (by simp)) fun _ => of_silent (fun _ _ => rfl) fun _ => rfl

end Watched

end Concurs

/-- An evaluation has the same outcome under two observers that agree, and their states stay related, unless the first one
aborts it and that is allowed. -/
theorem Model.evaluate_of_agrees (ho : o.Agrees gives R o') (call : Call) {s : σ} {t : τ} (h : R s t) (m : Model) :
    (gives ∧ ∃ p, Model.evaluate o call (s, m) = .error .aborted p) ∨
    ∃ t', R (finalState (Model.evaluate o call (s, m))).1 t' ∧
      Model.evaluate o' call (t, m) = mapOutcome id (fun p => (t', p.2)) (Model.evaluate o call (s, m)) := by
  have hrun := (Concurs.simulation ho m).invoke rfl rfl (fun g _ => g.body.allObjects_of_forall fun _ => rfl)
    (maxCallDepth + 1) call.callee call.location (.start s m.nextObject) t h
  have hstart : (Run.start s m.nextObject).watchedBy t = Run.start t m.nextObject := rfl
  rw [hstart] at hrun
  simp only [Model.evaluate]
  rcases hrun with ⟨hgives, r, hr⟩ | ⟨t', ht', hy⟩
  · rw [hr]
    exact .inl ⟨hgives, _, rfl⟩
  · rw [hy]
    cases hx : Independence.invoke m o (maxCallDepth + 1) call.callee call.location (.start s m.nextObject)
    all_goals
      rw [hx] at ht'
      exact .inr ⟨t', ht', rfl⟩

end Independence
