import Independence.Evaluation.Evaluator
import Independence.Proofs.Program.Objects
/-!
# Scoped commits

Effects are committed around a body and rolled back when it ends. The body runs on the model with the writes laid over
its heap. Afterwards the written bindings and the objects that the commit introduced are as before, and everything else
is as the body left it. Scopes nest: a body under several effects sees of all writes to a binding the innermost one.
-/

namespace Independence

variable {α : Type}

open Evaluator (within withinAll)

/-! ## One scope -/

/-- A commit onto the model makes the object known: it is among those created and was not known before. -/
def Effects.introduces (e : Effects) (m : Model) (o : ObjectId) : Bool := e.created.contains o && !m.heap.knows o

/-- The model while the effects are committed. -/
def Model.inside (m : Model) (e : Effects) : Model := (Evaluator.commit e m).1

theorem Model.get?_inside (m : Model) (e : Effects) : (m.inside e).get? = e.overlay m.get? :=
  Heap.get?_commit m.heap e

theorem Evaluator.fst_within (m : Model) (e : Effects) (body : Model → α × Model) :
    (within e body m).1 = (body (m.inside e)).1 := rfl

/-- To leave a scope changes nothing but the heap. -/
theorem Evaluator.snd_within (m : Model) (e : Effects) (body : Model → α × Model) :
    ∃ heap, (within e body m).2 = { (body (m.inside e)).2 with heap } := ⟨_, rfl⟩

theorem Evaluator.get?_within (m : Model) (e : Effects) (body : Model → α × Model) (b : Binding) :
    (within e body m).2.get? b =
      if e.introduces m b.object then none
      else if b ∈ e.writes then m.get? b
      else (body (m.inside e)).2.get? b := by
  refine (Heap.get?_rollback_commit m.heap (body (m.inside e)).2.heap e b).trans ?_
  have hiff : e.introduces m b.object = true ↔ b.object ∈ e.created ∧ m.heap.knows b.object = false := by
    simp [Effects.introduces]
  by_cases hi : b.object ∈ e.created ∧ m.heap.knows b.object = false
  · -- What was not known before had no properties.
    rw [if_pos (.inr hi), if_pos (hiff.2 hi)]
    exact Heap.get?_of_not_knows hi.2
  · rw [if_neg (mt hiff.1 hi)]
    by_cases hb : b ∈ e.writes
    · rw [if_pos (.inl hb), if_pos hb]
      rfl
    · rw [if_neg (not_or.2 ⟨hb, hi⟩), if_neg hb]
      rfl

/-- A scope around a body that changes no look-up changes none. -/
theorem Evaluator.get?_within_of_keeps {m : Model} {e : Effects} {body : Model → α × Model}
    (hbody : (body (m.inside e)).2.get? = (m.inside e).get?) : (within e body m).2.get? = m.get? := by
  funext b
  rw [get?_within, hbody, Model.get?_inside]
  by_cases hi : e.introduces m b.object
  · rw [if_pos hi]
    simp only [Effects.introduces, Bool.and_eq_true, Bool.not_eq_true'] at hi
    exact (Heap.get?_of_not_knows hi.2).symm
  · rw [if_neg hi]
    by_cases hb : b ∈ e.writes
    · rw [if_pos hb]
    · rw [if_neg hb, Effects.overlay_of_not_mem _ hb]

/-! ## Nested scopes -/

/-- The last of the effects that write a binding, and what they write. -/
def Effects.lastWrite? (es : List Effects) (b : Binding) : Option WriteSite := es.reverse.findSome? (·.writes[b]?)

theorem Effects.lastWrite?_cons (e : Effects) (es : List Effects) (b : Binding) :
    lastWrite? (e :: es) b = (lastWrite? es b).or e.writes[b]? := by
  simp [lastWrite?, List.findSome?_append, List.findSome?_cons]
  cases e.writes[b]? <;> rfl

/-- Of effects laid over each other the last ones that write a binding are the ones seen. -/
theorem Effects.overlayAll_eq_lastWrite? (es : List Effects) (v : Binding → Option Value) (b : Binding) :
    overlayAll es v b = match lastWrite? es b with
      | some site => site.value
      | none => v b := by
  induction es generalizing v with
  | nil => rfl
  | cons e es ih =>
    refine (ih (e.overlay v)).trans ?_
    rw [lastWrite?_cons]
    cases lastWrite? es b with
    | some site => rfl
    | none =>
      simp only [Option.none_or]
      rfl

/-- The model while all of the effects are committed, the first ones outermost. -/
def Model.insideAll (m : Model) (es : List Effects) : Model := es.foldl Model.inside m

theorem Model.get?_insideAll (m : Model) (es : List Effects) :
    (m.insideAll es).get? = Effects.overlayAll es m.get? := by
  induction es generalizing m with
  | nil => rfl
  | cons e es ih =>
    refine (ih (m.inside e)).trans ?_
    rw [get?_inside]
    rfl

theorem Evaluator.fst_withinAll (m : Model) (es : List Effects) (body : Model → α × Model) :
    (withinAll es body m).1 = (body (m.insideAll es)).1 := by
  induction es generalizing m with
  | nil => rfl
  | cons e es ih => exact ih (m.inside e)

theorem Evaluator.get?_withinAll_of_keeps {m : Model} {es : List Effects} {body : Model → α × Model}
    (hbody : (body (m.insideAll es)).2.get? = (m.insideAll es).get?) : (withinAll es body m).2.get? = m.get? := by
  -- From the outermost scope inwards, each one is a scope around a body that changes no look-up.
  induction es generalizing m with
  | nil => exact hbody
  | cons e es ih => exact get?_within_of_keeps (ih (m := m.inside e) hbody)

/-! ## Overlay and undo -/

/-- While effects are committed, written bindings have the values written and all others are as before, whatever the
body. Afterwards nothing is left of the objects introduced, the other written bindings have the values from before the
commit, and the remaining ones those that the body left; nothing but the heap is undone. Around a body that changes no
look-up, nested scopes show the last write to each binding and leave every look-up as it was. -/
theorem Model.scopes_overlay_and_undo (m : Model) :
    (∀ e : Effects, ∃ inside : Model,
      (∀ b, inside.get? b = match e.writes[b]? with
        | some site => site.value
        | none => m.get? b) ∧
      ∀ (β : Type) (body : Model → β × Model),
        (within e body m).1 = (body inside).1 ∧
        (∃ heap, (within e body m).2 = { (body inside).2 with heap }) ∧
        ∀ b, (within e body m).2.get? b =
          if e.introduces m b.object then none
          else if b ∈ e.writes then m.get? b
          else (body inside).2.get? b) ∧
    ∀ es : List Effects, ∃ inside : Model,
      (∀ b, inside.get? b = match Effects.lastWrite? es b with
        | some site => site.value
        | none => m.get? b) ∧
      ∀ (β : Type) (body : Model → β × Model),
        (withinAll es body m).1 = (body inside).1 ∧
        ((body inside).2.get? = inside.get? → (withinAll es body m).2.get? = m.get?) := by
  refine ⟨fun e => ⟨m.inside e, fun b => ?_, fun β body => ?_⟩,
    fun es => ⟨m.insideAll es, fun b => ?_, fun β body => ?_⟩⟩
  · rw [get?_inside]
    rfl
  · exact ⟨Evaluator.fst_within m e body, Evaluator.snd_within m e body, Evaluator.get?_within m e body⟩
  · rw [get?_insideAll, Effects.overlayAll_eq_lastWrite?]
  · exact ⟨Evaluator.fst_withinAll m es body, Evaluator.get?_withinAll_of_keeps⟩

/-- The property deleted in the inner scope is not seen inside, the one written on an unknown object is, and neither is
left. -/
theorem Model.scopes_overlay_and_undo_nested :
    let outer : Effects := .ofLists (.normal .undefined) [⟨5⟩]
      [(⟨⟨0⟩, ⟨0⟩⟩, ⟨none, some .undefined⟩), (⟨⟨5⟩, ⟨1⟩⟩, ⟨none, some .undefined⟩)]
    let inner : Effects := .ofLists (.normal .undefined) [⟨5⟩]
      [(⟨⟨0⟩, ⟨0⟩⟩, ⟨none, none⟩), (⟨⟨9⟩, ⟨2⟩⟩, ⟨none, some .undefined⟩)]
    let look (n : Model) := ((n.get? ⟨⟨0⟩, ⟨0⟩⟩, n.get? ⟨⟨5⟩, ⟨1⟩⟩, n.get? ⟨⟨9⟩, ⟨2⟩⟩), n)
    (withinAll [outer, inner] look sample).1 = (none, some .undefined, some .undefined) ∧
      (withinAll [outer, inner] look sample).2.get? = sample.get? := by
  intro outer inner look
  obtain ⟨inside, hinside, hwithin⟩ := (scopes_overlay_and_undo sample).2 [outer, inner]
  obtain ⟨hseen, hkeeps⟩ := hwithin _ look
  refine ⟨?_, hkeeps rfl⟩
  rw [hseen]
  simp only [look, hinside]
  rfl

end Independence
