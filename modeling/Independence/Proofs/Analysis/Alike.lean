import Independence.Proofs.Analysis.Steps
/-!
# Steps that end alike

Two steps may be taken in different sessions and still end alike: both have results, or both fail with the same failure.
What is known of the two results and sessions then is said by a relation. The rules are those for one step, two at a time.
-/

namespace Independence.Analysis

variable {m α α' β β' : Type} {s s' : Session m} {E E' : Session m → Session m → Prop}

/-- From `s` and `s'` both steps have results, which satisfy `Q` with the states then, or both fail with the same failure
in states that satisfy `E`. -/
def Alike (x : Analysis m α) (x' : Analysis m α') (s s' : Session m) (Q : α → Session m → α' → Session m → Prop)
    (E : Session m → Session m → Prop) : Prop :=
  match x s, x' s' with
  | .ok a t, .ok a' t' => Q a t a' t'
  | .error e t, .error e' t' => e' = e ∧ E t t'
  | .ok _ _, .error _ _ | .error _ _, .ok _ _ => False

namespace Alike

variable {x : Analysis m α} {x' : Analysis m α'} {k : α → Analysis m β} {k' : α' → Analysis m β'}
  {Q Q' : α → Session m → α' → Session m → Prop} {R : β → Session m → β' → Session m → Prop}

theorem of_ok (h : Alike x x' s s' Q E) {a : α} {t : Session m} (hx : x s = .ok a t) :
    ∃ a' t', x' s' = .ok a' t' ∧ Q a t a' t' := by
  simp only [Alike, hx] at h
  cases hx' : x' s' with
  | ok a' t' =>
    rw [hx'] at h
    exact ⟨a', t', rfl, h⟩
  | error e' t' =>
    rw [hx'] at h
    exact h.elim

theorem of_error (h : Alike x x' s s' Q E) {e : Failure} {t : Session m} (hx : x s = .error e t) :
    ∃ t', x' s' = .error e t' ∧ E t t' := by
  simp only [Alike, hx] at h
  cases hx' : x' s' with
  | ok a' t' =>
    rw [hx'] at h
    exact h.elim
  | error e' t' =>
    rw [hx'] at h
    exact ⟨t', by rw [h.1], h.2⟩

/-- The two steps have results together, or fail together. -/
theorem intro (hok : ∀ a t, x s = .ok a t → ∃ a' t', x' s' = .ok a' t' ∧ Q a t a' t')
    (herror : ∀ e t, x s = .error e t → ∃ t', x' s' = .error e t' ∧ E t t') : Alike x x' s s' Q E := by
  unfold Alike
  cases hx : x s with
  | ok a t =>
    obtain ⟨a', t', hx', h⟩ := hok a t hx
    rw [hx']
    exact h
  | error e t =>
    obtain ⟨t', hx', h⟩ := herror e t hx
    rw [hx']
    exact ⟨rfl, h⟩

theorem mono (h : Alike x x' s s' Q E) (hQ : ∀ a t a' t', Q a t a' t' → Q' a t a' t') (hE : ∀ t t', E t t' → E' t t') :
    Alike x x' s s' Q' E' :=
  .intro (fun _ _ hx => (h.of_ok hx).imp fun _ h => h.imp fun _ h => ⟨h.1, hQ _ _ _ _ h.2⟩)
    fun _ _ hx => (h.of_error hx).imp fun _ h => ⟨h.1, hE _ _ h.2⟩

/-- What is known of the first step alone is known besides. -/
theorem and_left {Q₁ : α → Session m → Prop} {E₁ : Failure → Session m → Prop} (h : Alike x x' s s' Q E)
    (h₁ : x.Ends s Q₁ E₁) : Alike x x' s s' (fun a t a' t' => Q₁ a t ∧ Q a t a' t') E := by
  refine .intro (fun a t hx => ?_) fun e t hx => h.of_error hx
  obtain ⟨a', t', hx', hq⟩ := h.of_ok hx
  exact ⟨a', t', hx', h₁.of_ok hx, hq⟩

theorem pure {a : α} {a' : α'} (h : Q a s a' s') : Alike (Pure.pure a) (Pure.pure a') s s' Q E := h

theorem throw {e : Failure} (h : E s s') :
    Alike (MonadExcept.throw e : Analysis m α) (MonadExcept.throw e : Analysis m α') s s' Q E := ⟨rfl, h⟩

theorem bind (h : Alike x x' s s' Q E) (hk : ∀ a t a' t', Q a t a' t' → Alike (k a) (k' a') t t' R E) :
    Alike (x >>= k) (x' >>= k') s s' R E := by
  simp only [Alike, Bind.bind, EStateM.bind] at h ⊢
  cases hx : x s with
  | ok a t =>
    obtain ⟨a', t', hx', hq⟩ := of_ok h hx
    rw [hx']
    exact hk a t a' t' hq
  | error e t =>
    obtain ⟨t', hx', he⟩ := of_error h hx
    rw [hx']
    exact ⟨rfl, he⟩

theorem get {k : Session m → Analysis m β} {k' : Session m → Analysis m β'} (h : Alike (k s) (k' s') s s' R E) :
    Alike (MonadState.get >>= k) (MonadState.get >>= k') s s' R E := h

theorem set {t t' : Session m} {k : Unit → Analysis m β} {k' : Unit → Analysis m β'}
    (h : Alike (k ()) (k' ()) t t' R E) :
    Alike (MonadStateOf.set t >>= k) (MonadStateOf.set t' >>= k') s s' R E := h

theorem modified {f f' : Session m → Session m} {Q : Unit → Session m → Unit → Session m → Prop}
    (h : Q () (f s) () (f' s')) : Alike (modify f) (modify f') s s' Q E := h

/-- Two lists of steps, where the one list is for the images of what the other one is for. -/
theorem mapM {I : Session m → Session m → Prop} {f : α → Analysis m β} {f' : α' → Analysis m β} {g : α → α'}
    {as : List α} (h : ∀ a ∈ as, ∀ t t', I t t' → Alike (f a) (f' (g a)) t t' (fun b u b' u' => b' = b ∧ I u u') E)
    (hs : I s s') : Alike (as.mapM f) ((as.map g).mapM f') s s' (fun bs t bs' t' => bs' = bs ∧ I t t') E := by
  induction as generalizing s s' with
  | nil => exact ⟨rfl, hs⟩
  | cons a as ih =>
    rw [List.map_cons, List.mapM_cons, List.mapM_cons]
    refine bind (h a List.mem_cons_self s s' hs) ?_
    rintro b t _ t' ⟨rfl, ht⟩
    refine bind (ih (fun c hc => h c (List.mem_cons_of_mem a hc)) ht) ?_
    rintro bs u _ u' ⟨rfl, hu⟩
    exact pure ⟨rfl, hu⟩

theorem inFrame {f : CallableId}
    (h : Alike x x' { s with traversal := s.traversal.enter f } { s' with traversal := s'.traversal.enter f }
      (fun a t a' t' => Q a { t with traversal := t.traversal.leave } a' { t' with traversal := t'.traversal.leave })
      fun t t' => E { t with traversal := t.traversal.leave } { t' with traversal := t'.traversal.leave }) :
    Alike (Analysis.inFrame f x) (Analysis.inFrame f x') s s' Q E := by
  simp only [Alike, Analysis.inFrame] at h ⊢
  cases hx : x { s with traversal := s.traversal.enter f } <;>
    cases hx' : x' { s' with traversal := s'.traversal.enter f } <;> rw [hx, hx'] at h <;> exact h

theorem committed [Evaluator m] {e e' : Effects}
    (h : Alike x x' { s with evaluator := (Evaluator.commit e s.evaluator).1 }
      { s' with evaluator := (Evaluator.commit e' s'.evaluator).1 }
      (fun a t a' t' =>
        Q a { t with evaluator := Evaluator.rollback t.evaluator (Evaluator.commit e s.evaluator).2 } a'
          { t' with evaluator := Evaluator.rollback t'.evaluator (Evaluator.commit e' s'.evaluator).2 })
      fun t t' => E { t with evaluator := Evaluator.rollback t.evaluator (Evaluator.commit e s.evaluator).2 }
        { t' with evaluator := Evaluator.rollback t'.evaluator (Evaluator.commit e' s'.evaluator).2 }) :
    Alike (Analysis.committed e x) (Analysis.committed e' x') s s' Q E := by
  simp only [Alike, Analysis.committed] at h ⊢
  cases hx : x { s with evaluator := (Evaluator.commit e s.evaluator).1 } <;>
    cases hx' : x' { s' with evaluator := (Evaluator.commit e' s'.evaluator).1 } <;> rw [hx, hx'] at h <;> exact h

end Alike

end Independence.Analysis
