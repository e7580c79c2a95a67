import Mathlib.Data.List.Forall2
import Mathlib.Order.Defs.Unbundled
import Independence.Analysis.Session
import Independence.Proofs.Evaluation.Trace
/-!
# How steps of the analysis end

A step either ends with a result or fails, and what is known of the state then may differ. The rules follow the
way in which steps are put together: sequences, lists of steps, frames and commits.
-/

namespace Independence.Analysis

variable {m α β : Type} {s : Session m} {E E' : Failure → Session m → Prop}

/-- From `s` the step ends with a result and a state that satisfy `Q`, or fails in a way and a state that satisfy
`E`. -/
def Ends (x : Analysis m α) (s : Session m) (Q : α → Session m → Prop) (E : Failure → Session m → Prop) : Prop :=
  match x s with
  | .ok a t => Q a t
  | .error e t => E e t

/-- A sequence that ends with a result went through one of its first part. -/
theorem of_bind_ok {x : Analysis m α} {k : α → Analysis m β} {b : β} {t : Session m} (h : (x >>= k) s = .ok b t) :
    ∃ a u, x s = .ok a u ∧ k a u = .ok b t := by
  simp only [Bind.bind, EStateM.bind] at h
  cases hx : x s with
  | ok a u =>
    rw [hx] at h
    exact ⟨a, u, rfl, h⟩
  | error e u =>
    rw [hx] at h
    cases h

namespace Ends

variable {x : Analysis m α} {k : α → Analysis m β} {Q Q' : α → Session m → Prop} {R : β → Session m → Prop}

theorem of_ok (h : x.Ends s Q E) {a : α} {t : Session m} (hx : x s = .ok a t) : Q a t := by
  simp only [Ends, hx] at h
  exact h

theorem mono (h : x.Ends s Q E) (hQ : ∀ a t, Q a t → Q' a t) (hE : ∀ e t, E e t → E' e t) : x.Ends s Q' E' := by
  unfold Ends at h ⊢
  cases hx : x s with
  | ok a t =>
    rw [hx] at h
    exact hQ a t h
  | error e t =>
    rw [hx] at h
    exact hE e t h

/-- What follows from something known before. -/
theorem of_imp {P : Prop} (h : P → x.Ends s Q E) : x.Ends s (fun a t => P → Q a t) fun e t => P → E e t := by
  unfold Ends at h ⊢
  cases hx : x s <;> simp only [hx] at h <;> exact h

/-- What is known in two ways is known at once. -/
theorem and (h : x.Ends s Q E) (h' : x.Ends s Q' E') :
    x.Ends s (fun a t => Q a t ∧ Q' a t) fun e t => E e t ∧ E' e t := by
  unfold Ends at h h' ⊢
  cases hx : x s <;> rw [hx] at h h' <;> exact ⟨h, h'⟩

theorem pure {a : α} (h : Q a s) : Ends (Pure.pure a) s Q E := h

theorem throw {e : Failure} (h : E e s) : Ends (MonadExcept.throw e) s Q E := h

theorem bind (h : x.Ends s Q E) (hk : ∀ a t, Q a t → (k a).Ends t R E) : (x >>= k).Ends s R E := by
  simp only [Ends, Bind.bind, EStateM.bind] at h ⊢
  cases hx : x s with
  | ok a t =>
    rw [hx] at h
    exact hk a t h
  | error e t =>
    rw [hx] at h
    exact h

/-- A first part that cannot fail. -/
theorem bind_sure (h : x.Ends s Q fun _ _ => False) (hk : ∀ a t, Q a t → (k a).Ends t R E) : (x >>= k).Ends s R E :=
  bind (h.mono (fun _ _ h => h) fun _ _ h => h.elim) hk

theorem get {k : Session m → Analysis m β} (h : (k s).Ends s R E) : Ends (MonadState.get >>= k) s R E := h

theorem set {t : Session m} {k : Unit → Analysis m β} (h : (k ()).Ends t R E) :
    Ends (MonadStateOf.set t >>= k) s R E := h

theorem modified {f : Session m → Session m} {Q : Unit → Session m → Prop} (h : Q () (f s)) :
    Ends (modify f) s Q E := h

/-- What holds however a step ends holds of the session in which it ends. -/
theorem final {P : Session m → Prop} (h : x.Ends s (fun _ => P) fun _ => P) : P (finalState (x s)) := by
  unfold Ends at h
  cases hx : x s <;> rw [hx] at h <;> exact h

/-- A report changes the reporter and nothing else. -/
theorem report {d : Diagnostic} {Q : Decision → Session m → Prop}
    (h : ∀ decision reporter, Q decision { s with reporter }) : Ends (Analysis.report d) s Q E := h _ _

theorem reported {d : Diagnostic} {Q : Decision → Session m → Prop}
    (h : Q (s.reporter.report d).1 { s with reporter := (s.reporter.report d).2 }) : Ends (Analysis.report d) s Q E := h

theorem fail {d : Diagnostic} {e : Failure} (h : ∀ reporter, E e { s with reporter }) :
    Ends (Analysis.fail d e) s Q E := h _

/-- What every step of a list keeps, the list keeps. -/
theorem forM {I : Session m → Prop} {f : α → Analysis m PUnit} {as : List α}
    (h : ∀ a ∈ as, ∀ t, I t → (f a).Ends t (fun _ => I) E) (hs : I s) : (as.forM f).Ends s (fun _ => I) E := by
  induction as generalizing s with
  | nil => exact hs
  | cons a as ih =>
    refine Ends.bind (h a List.mem_cons_self s hs) fun _ t ht => ?_
    exact ih (fun b hb => h b (List.mem_cons_of_mem a hb)) ht

/-- Where every step of a list keeps `I` and has a result that satisfies `R`, so do all together. -/
theorem mapM {I : Session m → Prop} {R : α → β → Prop} {f : α → Analysis m β} {as : List α}
    (h : ∀ a ∈ as, ∀ t, I t → (f a).Ends t (fun b u => I u ∧ R a b) E) (hs : I s) :
    (as.mapM f).Ends s (fun bs t => I t ∧ List.Forall₂ R as bs) E := by
  induction as generalizing s with
  | nil => exact ⟨hs, .nil⟩
  | cons a as ih =>
    rw [List.mapM_cons]
    refine Ends.bind (h a List.mem_cons_self s hs) fun b t hb => ?_
    refine Ends.bind (ih (fun c hc => h c (List.mem_cons_of_mem a hc)) hb.1) fun bs u hbs => ?_
    exact Ends.pure ⟨hbs.1, .cons hb.2 hbs.2⟩

theorem inFrame {f : CallableId} (h : x.Ends { s with traversal := s.traversal.enter f }
    (fun a t => Q a { t with traversal := t.traversal.leave }) fun e t => E e { t with traversal := t.traversal.leave }) :
    (Analysis.inFrame f x).Ends s Q E := by
  simp only [Ends, Analysis.inFrame] at h ⊢
  cases hx : x { s with traversal := s.traversal.enter f } <;>
    rw [hx] at h <;> exact h

theorem committed [Evaluator m] {e : Effects}
    (h : x.Ends { s with evaluator := (Evaluator.commit e s.evaluator).1 }
      (fun a t => Q a { t with evaluator := Evaluator.rollback t.evaluator (Evaluator.commit e s.evaluator).2 })
      fun f t => E f { t with evaluator := Evaluator.rollback t.evaluator (Evaluator.commit e s.evaluator).2 }) :
    (Analysis.committed e x).Ends s Q E := by
  simp only [Ends, Analysis.committed] at h ⊢
  cases hx : x { s with evaluator := (Evaluator.commit e s.evaluator).1 } <;>
    rw [hx] at h <;> exact h

end Ends

/-! ## Steps along a preorder -/

/-- However the step ends, it leads along `T`. -/
def Follows (T : Session m → Session m → Prop) (x : Analysis m α) : Prop := ∀ s, x.Ends s (fun _ => T s) fun _ => T s

namespace Follows

variable {T : Session m → Session m → Prop} [IsPreorder (Session m) T] {x : Analysis m α} {k : α → Analysis m β}

theorem pure (a : α) : Follows T (Pure.pure a) := fun s => Ends.pure (refl_of T s)

theorem throw (e : Failure) : Follows T (MonadExcept.throw e : Analysis m α) := fun s => Ends.throw (refl_of T s)

theorem bind (hx : Follows T x) (hk : ∀ a, Follows T (k a)) : Follows T (x >>= k) := fun s =>
  Ends.bind (hx s) fun a t ht => (hk a t).mono (fun _ _ => trans_of T ht) fun _ _ => trans_of T ht

omit [IsPreorder (Session m) T] in
theorem final (h : Follows T x) (s : Session m) : T s (finalState (x s)) := (h s).final

/-- From the end of a first part, the rest leads along `T`. -/
theorem final_bind (hk : ∀ a, Follows T (k a)) (s : Session m) :
    T (finalState (x s)) (finalState ((x >>= k) s)) := by
  simp only [Bind.bind, EStateM.bind]
  cases x s with
  | ok a t => exact (hk a).final t
  | error e t => exact refl_of T t

omit [IsPreorder (Session m) T] in
theorem get {k : Session m → Analysis m β} (hk : ∀ s, (k s).Ends s (fun _ => T s) fun _ => T s) :
    Follows T (MonadState.get >>= k) := fun s => Ends.get (hk s)

theorem mapM {f : α → Analysis m β} (hf : ∀ a, Follows T (f a)) (as : List α) : Follows T (as.mapM f) := by
  induction as with
  | nil => exact .pure []
  | cons a as ih =>
    rw [List.mapM_cons]
    exact .bind (hf a) fun b => .bind ih fun bs => .pure (b :: bs)

theorem forM {f : α → Analysis m PUnit} (hf : ∀ a, Follows T (f a)) (as : List α) : Follows T (as.forM f) := by
  induction as with
  | nil => exact .pure PUnit.unit
  | cons a as ih => exact .bind (hf a) fun _ => ih

end Follows

end Independence.Analysis
