import Independence.Proofs.Analysis.Steps
import Independence.Analysis.Discovery
/-!
# More levels

How deep candidates may be nested decides about nothing but when discovery gives up. With more levels it takes the same
course, unless it gave up because there were none left.
-/

namespace Independence.Analysis

variable {m α β : Type} {x y : Analysis m α}

/-- `y` does what `x` does, unless `x` gives up because candidates are nested too deep. -/
def Refines (x y : Analysis m α) : Prop :=
  ∀ s, (∃ limit t, x s = .error (.depthExceeded limit) t) ∨ y s = x s

namespace Refines

theorem refl (x : Analysis m α) : Refines x x := fun _ => .inr rfl

theorem bind {k l : α → Analysis m β} (hx : Refines x y) (hk : ∀ a, Refines (k a) (l a)) :
    Refines (x >>= k) (y >>= l) := by
  intro s
  simp only [Bind.bind, EStateM.bind]
  rcases hx s with ⟨limit, t, h⟩ | h
  · exact .inl ⟨limit, t, by rw [h]⟩
  · rw [h]
    cases x s with
    | ok a t => exact hk a t
    | error e t => exact .inr rfl

theorem forM {f g : α → Analysis m PUnit} (h : ∀ a, Refines (f a) (g a)) (as : List α) :
    Refines (as.forM f) (as.forM g) := by
  induction as with
  | nil => exact refl _
  | cons a as ih => exact bind (h a) fun _ => ih

theorem inFrame (h : Refines x y) (f : CallableId) : Refines (inFrame f x) (inFrame f y) := by
  intro s
  simp only [Analysis.inFrame]
  rcases h { s with traversal := s.traversal.enter f } with ⟨limit, t, h⟩ | h
  · exact .inl ⟨limit, _, by rw [h]⟩
  · exact .inr (by rw [h])

variable [Evaluator m]

theorem committed (h : Refines x y) (e : Effects) : Refines (committed e x) (committed e y) := by
  intro s
  simp only [Analysis.committed]
  rcases h { s with evaluator := (Evaluator.commit e s.evaluator).1 } with ⟨limit, t, h⟩ | h
  · exact .inl ⟨limit, _, by rw [h]⟩
  · exact .inr (by rw [h])

/-- A request is processed as it would be with more levels left, under whatever limit. -/
theorem process (names : Names) (limit limit' : Nat) {levels levels' : Nat} (h : levels ≤ levels') (request : Request) :
    Refines (process (m := m) ⟨names, limit⟩ levels request) (process ⟨names, limit'⟩ levels' request) := by
  induction levels generalizing levels' request with
  | zero =>
    unfold Analysis.process
    refine bind (refl _) fun s => ?_
    cases Evaluator.candidate? s.evaluator request.target with
    | none => exact refl _
    | some f =>
      cases hfirst : s.accepted? f with
      | some first =>
        simp only [hfirst]
        exact refl (again (m := m) ⟨names, limit⟩ f first request)
      | none =>
        simp only [hfirst]
        exact bind (refl _) fun _ t => .inl ⟨limit, _, rfl⟩
  | succ levels ih =>
    obtain ⟨levels', rfl⟩ := Nat.exists_eq_add_of_le' (Nat.lt_of_lt_of_le (Nat.succ_pos levels) h)
    unfold Analysis.process
    refine bind (refl _) fun s => ?_
    cases Evaluator.candidate? s.evaluator request.target with
    | none => exact refl _
    | some f =>
      cases hfirst : s.accepted? f with
      | some first =>
        simp only [hfirst]
        exact refl (again (m := m) ⟨names, limit⟩ f first request)
      | none =>
        simp only [hfirst]
        refine bind (refl _) fun _ => inFrame (bind (refl (captureNew (m := m) ⟨names, limit⟩ ⟨f, request⟩)) ?_) f
        rintro ⟨r, requests⟩
        simp only
        split
        · exact refl _
        · refine bind (refl _) fun _ => committed (forM (fun next => ?_) requests) r.effects
          exact ih (Nat.le_of_succ_le_succ h) next

theorem drain (names : Names) {limit limit' : Nat} (h : limit ≤ limit') (requests : List Request) :
    Refines (drain (m := m) ⟨names, limit⟩ requests) (drain ⟨names, limit'⟩ requests) := by
  induction requests with
  | nil => exact refl _
  | cons request queue ih =>
    refine bind (refl _) fun _ => bind (refl _) fun s => bind ?_ fun _ => ih
    exact process names limit limit' (Nat.sub_le_sub_right h _) request

theorem discover (names : Names) {limit limit' : Nat} (h : limit ≤ limit') :
    Refines (discover (m := m) ⟨names, limit⟩) (discover ⟨names, limit'⟩) :=
  bind (refl _) fun s => bind (drain names h s.queue) fun _ => refl _

/-- If neither gives up, the limit makes no difference. -/
theorem discover_eq (names : Names) {limit limit' : Nat} {s : Session m}
    (h : ∀ d t, Analysis.discover ⟨names, limit⟩ s ≠ .error (.depthExceeded d) t)
    (h' : ∀ d t, Analysis.discover ⟨names, limit'⟩ s ≠ .error (.depthExceeded d) t) :
    Analysis.discover ⟨names, limit'⟩ s = Analysis.discover ⟨names, limit⟩ s := by
  rcases Nat.le_total limit limit' with hle | hle
  · exact (discover names hle s).resolve_left fun ⟨d, t, hd⟩ => h d t hd
  · exact ((discover names hle s).resolve_left fun ⟨d, t, hd⟩ => h' d t hd).symm

end Refines

end Independence.Analysis
