import Independence.Proofs.Evaluation.Progress
/-!
# Evaluations stop where they are told to

An evaluation ends because it was aborted exactly when the answer to a side effect was to abort. So what an observer
keeps as long as it lets everything pass holds at every other end, and what it establishes with an abort holds then.
-/

namespace Independence

variable {σ : Type} {o : Observer σ} {I A : σ → Prop}

/-- The observer keeps `I` while it lets everything pass, and with an abort it establishes `A`, also for when the
bodies that are running are left. -/
structure Observer.Guards (o : Observer σ) (I A : σ → Prop) : Prop where
  plain : ∀ (e : Event) (s : σ), (∀ x, e ≠ .sideEffect x) → I s → I (o.answer e s).2
  proceeds : ∀ (e : SideEffect) (s : σ), I s → (o.answer (.sideEffect e) s).1 = .proceed →
    I (o.answer (.sideEffect e) s).2
  aborts : ∀ (e : SideEffect) (s : σ), I s → (o.answer (.sideEffect e) s).1 = .abort → A (o.answer (.sideEffect e) s).2
  left : ∀ (f : CallableId) (s : σ), A s → A (o.answer (.exit f) s).2

/-- A computation that ends aborted with `A` and in any other way with `I`. The second one plays no part. -/
def Obeys (I A : σ → Prop) {α β : Type} (_ : α → β) (x : Eval σ α) (_ : Eval σ β) : Prop :=
  ∀ r : Run σ, I r.observer → match x r with
    | .error .aborted s => A s.observer
    | .ok _ s | .error _ s => I s.observer

namespace Obeys

theorem of_ok {α β : Type} {g : α → β} {x : Eval σ α} {y : Eval σ β}
    (h : ∀ r, I r.observer → ∃ a s, x r = .ok a s ∧ I s.observer) : Obeys I A g x y := by
  intro r hr
  obtain ⟨a, s, hx, hs⟩ := h r hr
  rw [hx]
  exact hs

theorem bind {α β γ δ : Type} {g : α → β} {h : γ → δ} {x : Eval σ α} {y : Eval σ β} {k : α → Eval σ γ}
    {l : β → Eval σ δ} (hx : Obeys I A g x y) (hk : ∀ a, Obeys I A h (k a) (l (g a))) :
    Obeys I A h (x >>= k) (y >>= l) := by
  intro r hr
  have hr := hx r hr
  simp only [Bind.bind, EStateM.bind]
  cases hxr : x r with
  | ok a s =>
    rw [hxr] at hr
    exact hk a s hr
  | error e s =>
    rw [hxr] at hr
    cases e <;> exact hr

theorem resolve (t : Target) (l : Location) : Obeys I A id (t.resolve l) (t.resolve l) := by
  intro r hr
  cases t with
  | object a => exact hr
  | allocated n =>
    rw [Target.resolve_allocated]
    cases r.locals[n]? <;> exact hr

section Guarded
variable (ho : o.Guards I A)
include ho

theorem announce (e : SideEffect) : Obeys I A id (announce o e) (announce o e) := by
  intro r hr
  have hproceeds := ho.proceeds e r.observer hr
  have haborts := ho.aborts e r.observer hr
  simp only [Independence.announce]
  cases h : (o.answer (.sideEffect e) r.observer).1 with
  | proceed => exact hproceeds h
  | abort => exact haborts h

theorem openWrite (t : Target) (k : Key) (l : Location) : Obeys I A id (openWrite o t k l) (openWrite o t k l) := by
  refine bind (resolve t l) fun a => bind (g := id) (y := announceWrite o ⟨a, k⟩ l) ?_ fun _ => .of_ok ?_
  · intro r hr
    simp only [announceWrite]
    cases r.created.contains a with
    | true => exact hr
    | false => exact announce ho _ r hr
  · exact fun r hr => ⟨a, r, rfl, hr⟩

theorem notify {e : Event} (he : ∀ x, e ≠ .sideEffect x) : Obeys I A id (notify o e) (notify o e) :=
  .of_ok fun r hr => ⟨(), r.observe o e, rfl, ho.plain e _ he hr⟩

theorem framed (c : CallableId) {x y : Eval σ Flow} (hx : Obeys I A id x y) :
    Obeys I A id (framed o c x) (framed o c y) := by
  intro r hr
  have hin := hx { r.observe o (.enter c) with locals := #[] } (ho.plain (.enter c) _ (by simp) hr)
  simp only [Independence.framed]
  cases hb : x { r.observe o (.enter c) with locals := #[] } with
  | ok flow s =>
    rw [hb] at hin
    exact ho.plain (.exit c) _ (by simp) hin
  | error e s =>
    rw [hb] at hin
    cases e with
    | aborted => exact ho.left c _ hin
    | _ => exact ho.plain (.exit c) _ (by simp) hin

theorem simulation (m : Model) : Simulation m m o o id (@Obeys σ I A) where
  pure _ a := .of_ok fun r hr => ⟨a, r, rfl, hr⟩
  throw _ e he r hr := by
    cases e with
    | aborted => exact absurd rfl he
    | _ => exact hr
  bind := .bind
  framed c _ _ := framed ho c
  resolve t l _ := resolve t l
  notify e he _ := by
    rw [Event.rename_id]
    exact notify ho he
  assign _ _ := announce ho _
  openWrite t k l _ := openWrite ho t k l
  storeWrite b s := .of_ok fun r hr => ⟨(), _, rfl, hr⟩
  allocate := .of_ok fun r hr => ⟨(), _, rfl, hr⟩
  noteThrow a := .of_ok fun r hr => ⟨(), _, rfl, hr⟩
  readIs b l v _ := bind (notify ho (by simp)) fun _ => .of_ok fun r hr => ⟨_, r, rfl, hr⟩

end Guarded

end Obeys

/-- An evaluation ends aborted where its observer says so, and nowhere else. -/
theorem Model.evaluate_obeys (ho : o.Guards I A) (call : Call) {s : σ} (hs : I s) (m : Model) :
    match Model.evaluate o call (s, m) with
    | .error .aborted p => A p.1
    | .ok _ p | .error _ p => I p.1 := by
  have hrun := (Obeys.simulation ho m).invoke rfl rfl (fun g _ => g.body.allObjects_of_forall fun _ => rfl)
    (maxCallDepth + 1) call.callee call.location (.start s m.nextObject) hs
  simp only [Model.evaluate]
  cases hi : invoke m o (maxCallDepth + 1) call.callee call.location (.start s m.nextObject) with
  | ok flow r =>
    rw [hi] at hrun
    exact hrun
  | error e r =>
    rw [hi] at hrun
    cases e <;> exact hrun

end Independence
