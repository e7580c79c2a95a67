import Independence.Evaluation.Evaluator
import Independence.Proofs.Evaluation.Reproduction
/-!
# Models under committed effects

While effects are committed, a model is the one from before with the effects laid over its heap. It stays so
through evaluations, and when the last commit is undone it is the model under the other ones again. Two
evaluations of a call under the same chain of effects differ in the numbers of new objects only.
-/

namespace Independence

variable {σ α β : Type} {m₀ m m' : Model} {chain : List Effects}

namespace Evaluator

/-- The outcome of an evaluation with the state of the observer, beside the evaluator afterwards. -/
def outcome {e : Type} : EStateM.Result EvalError (σ × e) Effects → (Except EvalError Effects × σ) × e
  | .ok effects (t, s) => ((.ok effects, t), s)
  | .error x (t, s) => ((.error x, t), s)

/-- Evaluates a call with a chain of effects committed, the first one outermost. -/
def evaluateUnder {e : Type} [Evaluator e] (chain : List Effects) (o : Observer σ) (call : Call) (t : σ) (s : e) :
    (Except EvalError Effects × σ) × e :=
  withinAll chain (fun s => outcome (evaluate o call (t, s))) s

end Evaluator

theorem Evaluator.outcome_mapOutcome {τ e : Type} (f : σ → τ) (x : EStateM.Result EvalError (σ × e) Effects) :
    outcome (mapOutcome id (fun p => (f p.1, p.2)) x) =
      (((outcome x).1.1, f (outcome x).1.2), (outcome x).2) := by
  cases x <;> rfl

theorem Evaluator.events_outcome (x : EStateM.Result EvalError (List Event × Model) Effects) :
    (outcome x).1.2 = (finalState x).1 := by
  cases x <;> rfl

theorem Evaluator.model_outcome (x : EStateM.Result EvalError (List Event × Model) Effects) :
    (outcome x).2 = (finalState x).2 := by
  cases x <;> rfl

theorem Evaluator.withinAll_map {e : Type} [Evaluator e] (chain : List Effects) (body : e → α × e) (g : α → β) (s : e) :
    withinAll chain (fun s => (g (body s).1, (body s).2)) s =
      (g (withinAll chain body s).1, (withinAll chain body s).2) := by
  induction chain generalizing s with
  | nil => rfl
  | cons e chain ih => simp [withinAll, within, ih]

open Evaluator (evaluateUnder)

/-- A permissive observer sees the trace, under whatever effects. -/
theorem Model.evaluateUnder_of_permissive {o : Observer σ} (ho : o.Permissive) (chain : List Effects) (call : Call)
    (t : σ) (m : Model) : evaluateUnder chain o call t m =
      let x := evaluateUnder chain .trace call [] m
      ((x.1.1, o.after t x.1.2), x.2) := by
  refine Eq.trans ?_ (Evaluator.withinAll_map chain _
    (fun p : Except EvalError Effects × List Event => (p.1, o.after t p.2)) m)
  refine congrFun (congrArg (Evaluator.withinAll chain) (funext fun n => ?_)) m
  exact (congrArg Evaluator.outcome (Model.evaluate_of_permissive ho call t n)).trans
    (Evaluator.outcome_mapOutcome (o.after t) (n.traceOf call))

/-- The model has the program of `m₀`, and the heap of `m₀` with the chain of effects laid over it. -/
structure Model.Under (m₀ : Model) (chain : List Effects) (m : Model) : Prop where
  file : m.file = m₀.file
  symbols : m.symbols = m₀.symbols
  functions : m.functions = m₀.functions
  roots : m.roots = m₀.roots
  le_next : m₀.nextObject ≤ m.nextObject
  get? : m.get? = Effects.overlayAll chain m₀.get?

/-- The effects write only to objects with numbers below `n`. -/
def Effects.Below (n : Nat) (e : Effects) : Prop := ∀ b ∈ e.writes, b.object.index < n

theorem Effects.Below.mono {n k : Nat} (h : n ≤ k) {e : Effects} (he : e.Below n) : e.Below k :=
  fun b hb => Nat.lt_of_lt_of_le (he b hb) h

namespace Model.Under

theorem refl (m : Model) : m.Under [] m := ⟨rfl, rfl, rfl, rfl, Nat.le_refl _, rfl⟩

/-- A model under a chain, put under a second one. -/
theorem trans {fs : List Effects} (h : m₀.Under chain m) (h' : m.Under fs m') : m₀.Under (chain ++ fs) m' where
  file := h'.file.trans h.file
  symbols := h'.symbols.trans h.symbols
  functions := h'.functions.trans h.functions
  roots := h'.roots.trans h.roots
  le_next := Nat.le_trans h.le_next h'.le_next
  get? := by rw [h'.get?, h.get?, Effects.overlayAll_append]

/-- The same heap later on. -/
theorem later (h : m₀.Under chain m) (h' : m.Under [] m') : m₀.Under chain m' := by
  have := h.trans h'
  rwa [List.append_nil] at this

/-- The same heap when more objects were handed out. -/
theorem advance (h : m₀.Under chain m) {n : Nat} (hn : m.nextObject ≤ n) : m₀.Under chain { m with nextObject := n } :=
  ⟨h.file, h.symbols, h.functions, h.roots, Nat.le_trans h.le_next hn, h.get?⟩

/-! ## Commits -/

theorem commit (h : m₀.Under chain m) (e : Effects) : m₀.Under (chain ++ [e]) (Evaluator.commit e m).1 where
  file := h.file
  symbols := h.symbols
  functions := h.functions
  roots := h.roots
  le_next := h.le_next
  get? := by
    rw [Effects.overlayAll_concat, ← h.get?]
    exact Heap.get?_commit m.heap e

/-- Undoing the last commit leads back under the other ones. -/
theorem rollback {e : Effects} (h : m₀.Under chain m) (h' : m₀.Under (chain ++ [e]) m') :
    m₀.Under chain (Evaluator.rollback m' (Evaluator.commit e m).2) where
  file := h'.file
  symbols := h'.symbols
  functions := h'.functions
  roots := h'.roots
  le_next := h'.le_next
  get? := by
    funext b
    have hb : m.get? b = Effects.overlayAll chain m₀.get? b := congrFun h.get? b
    have hb' : m'.get? b = e.overlay (Effects.overlayAll chain m₀.get?) b := by
      rw [← Effects.overlayAll_concat]
      exact congrFun h'.get? b
    refine (Heap.get?_rollback_commit m.heap m'.heap e b).trans ?_
    split
    · exact hb
    · next hn =>
      rw [not_or] at hn
      exact hb'.trans (Effects.overlay_of_not_mem _ hn.1)

/-! ## Evaluations -/

/-- An evaluation leaves the model under the chain, however it ends. -/
theorem evaluate (h : m₀.Under chain m) (o : Observer σ) (call : Call) (t : σ) :
    m₀.Under chain (finalState (Model.evaluate o call (t, m))).2 := by
  obtain ⟨hm, hn⟩ := Model.model_evaluate o call t m
  rw [hm]
  exact ⟨h.file, h.symbols, h.functions, h.roots, Nat.le_trans h.le_next hn, h.get?⟩

/-- With a second chain committed, `body` runs on a model under both chains, and the model is under the first one
again afterwards. -/
theorem withinAll (h : m₀.Under chain m) (fs : List Effects) (body : Model → α × Model)
    (hbody : ∀ n, m₀.Under (chain ++ fs) n → m₀.Under (chain ++ fs) (body n).2) :
    ∃ n, m₀.Under (chain ++ fs) n ∧ n.nextObject = m.nextObject ∧
      (Evaluator.withinAll fs body m).1 = (body n).1 ∧
      m₀.Under chain (Evaluator.withinAll fs body m).2 ∧
      (Evaluator.withinAll fs body m).2.nextObject = (body n).2.nextObject := by
  induction fs generalizing chain m with
  | nil =>
    rw [List.append_nil] at hbody ⊢
    exact ⟨m, h, rfl, rfl, hbody m h, rfl⟩
  | cons e fs ih =>
    have happ : chain ++ e :: fs = (chain ++ [e]) ++ fs := by simp
    rw [happ] at hbody ⊢
    obtain ⟨n, hn, hnext, hfst, hsnd, hafter⟩ := ih (h.commit e) hbody
    exact ⟨n, hn, hnext, hfst, h.rollback hsnd, hafter⟩

/-- A call evaluated under a second chain takes the course of its trace on a model under both chains. -/
theorem evaluateUnder (h : m₀.Under chain m) (fs : List Effects) (call : Call) :
    ∃ n, m₀.Under (chain ++ fs) n ∧ n.nextObject = m.nextObject ∧
      (evaluateUnder fs .trace call [] m).1 = (Evaluator.outcome (n.traceOf call)).1 ∧
      m₀.Under chain (Evaluator.evaluateUnder fs .trace call [] m).2 ∧
      (Evaluator.evaluateUnder fs .trace call [] m).2.nextObject = (finalState (n.traceOf call)).2.nextObject := by
  obtain ⟨n, hn, hnext, hfst, hsnd, hafter⟩ := h.withinAll fs (fun s => Evaluator.outcome (s.traceOf call))
    fun n hn => by
      rw [Evaluator.model_outcome]
      exact hn.evaluate .trace call []
  exact ⟨n, hn, hnext, hfst, hsnd, by rwa [Evaluator.model_outcome] at hafter⟩

/-! ## The same call again -/

section Again
variable (hw : m₀.WellFormed)
include hw

theorem allObjects (h : m₀.Under chain m) : ∀ g ∈ m.functions, g.body.AllObjects m.HandedOut := by
  rw [h.functions]
  exact fun g hg => (hw.bodies g hg).mono fun a ha => Nat.lt_of_lt_of_le ha h.le_next

/-- Objects that were not handed out yet have no properties. -/
theorem get?_eq_none (h : m₀.Under chain m) (hb : ∀ e ∈ chain, e.Below m.nextObject) {b : Binding}
    (hn : m.nextObject ≤ b.object.index) : m.get? b = none := by
  rw [h.get?, Effects.overlayAll_of_not_mem _ fun e he hm => absurd (hb e he b hm) (Nat.not_lt.2 hn)]
  exact hw.get?_eq_none fun ha => absurd (Nat.lt_of_lt_of_le ha h.le_next) (Nat.not_lt.2 hn)

/-- Under the same chain a call evaluated later takes the same course, with the numbers of new objects moved up. -/
theorem traceOf_again (h : m₀.Under chain m) (h' : m₀.Under chain m') (hb : ∀ e ∈ chain, e.Below m.nextObject) {d : Nat}
    (hd : m'.nextObject = m.nextObject + d) (call : Call) :
    m'.traceOf call = mapOutcome (Effects.rename (.shift m.nextObject d))
      (fun p => (p.1.map (Event.rename (.shift m.nextObject d)),
        { m' with nextObject := p.2.nextObject + d, evaluations := m'.evaluations + 1 })) (m.traceOf call) := by
  refine Model.traceOf_shift (h'.file.trans h.file.symm) (h'.functions.trans h.functions.symm) (h.allObjects hw) hd
    call fun b l _ => ?_
  by_cases hlt : b.object.index < m.nextObject
  · have hsame : b.rename (.shift m.nextObject d) = b := congrArg (Binding.mk · b.key) (ObjectId.shift_of_lt hlt)
    rw [hsame, h.get?, h'.get?]
  · have hle := Nat.not_lt.1 hlt
    rw [h.get?_eq_none hw hb hle]
    refine h'.get?_eq_none hw (fun e he => (hb e he).mono (by omega)) ?_
    have hshift : (b.rename (.shift m.nextObject d)).object = ⟨b.object.index + d⟩ := ObjectId.shift_of_le hle
    rw [hshift, hd]
    exact Nat.add_le_add_right hle d

/-- Effects on top that write nothing of what a call reads make no difference to it. -/
theorem traceOf_unaffected {fs : List Effects} (h : m₀.Under chain m) (h' : m₀.Under (chain ++ fs) m')
    (hn : m'.nextObject = m.nextObject) (call : Call)
    (hr : ∀ (b : Binding) (l : Option Location), .read b l ∈ (finalState (m.traceOf call)).1 → ∀ f ∈ fs, b ∉ f.writes) :
    m'.traceOf call = mapOutcome id
      (fun p => (p.1, { m' with nextObject := p.2.nextObject, evaluations := m'.evaluations + 1 }))
      (m.traceOf call) := by
  have hag : m.AgreesOn m' m.nextObject 0 (finalState (m.traceOf call)).1 := by
    intro b l hbl
    rw [ObjectId.shift_zero, Binding.rename_id, h.get?, h'.get?, Effects.overlayAll_append]
    exact Effects.overlayAll_of_not_mem _ fun f hf => hr b l hbl f hf
  have heq := Model.traceOf_shift (h'.file.trans h.file.symm) (h'.functions.trans h.functions.symm)
    (h.allObjects hw) (d := 0) hn call hag
  have hid : Event.rename id = id := funext Event.rename_id
  rw [heq]
  cases m.traceOf call <;> simp [mapOutcome, hid]

/-- Under two chains that write the same to the objects of the program a call takes the same course, if equally many
objects were handed out. -/
theorem events_traceOf {chain' : List Effects} (h : m₀.Under chain m) (h' : m₀.Under chain' m')
    (hn : m'.nextObject = m.nextObject) (hb : ∀ e ∈ chain, e.Below m.nextObject)
    (hb' : ∀ e ∈ chain', e.Below m.nextObject) (hsame : ∀ b : Binding, m₀.HandedOut b.object →
      Effects.overlayAll chain' m₀.get? b = Effects.overlayAll chain m₀.get? b) (call : Call) :
    (finalState (m'.traceOf call)).1 = (finalState (m.traceOf call)).1 := by
  have hwithin := Model.within_traceOf (m := m) (fun g hg => hw.bodies g (h.functions ▸ hg)) call
  have hag : m.AgreesOn m' m.nextObject 0 (finalState (m.traceOf call)).1 := by
    intro b l hbl
    rw [ObjectId.shift_zero, Binding.rename_id]
    rcases (hwithin _ hbl).1 with hold | hnew
    · rw [h.get?, h'.get?]
      exact hsame b hold
    · rw [h.get?_eq_none hw hb hnew, h'.get?_eq_none hw (hn ▸ hb') (hn ▸ hnew)]
  have heq := Model.traceOf_shift (h'.file.trans h.file.symm) (h'.functions.trans h.functions.symm)
    (h.allObjects hw) (d := 0) hn call hag
  have hid : Event.rename id = id := funext Event.rename_id
  rw [heq]
  cases m.traceOf call <;> simp [mapOutcome, finalState, hid]

end Again

end Model.Under

/-! ## Renamed chains -/

/-- The values that the effects write mention only objects that satisfy `p`. -/
def Effects.Mentions (p : ObjectId → Prop) (e : Effects) : Prop :=
  ∀ (b : Binding) (s : WriteSite) (v : Value), e.writes[b]? = some s → s.value = some v → v.AllObjects p

section Renamed
variable {f : ObjectId → ObjectId} (hf : Function.Injective f)
include hf

/-- Where the values that are written stay the same, renamed effects write to the renamed bindings what the effects write
to the bindings. -/
theorem Effects.overlay_rename {e : Effects} (he : e.Mentions fun a => f a = a) {v v' : Binding → Option Value}
    (hv : ∀ b : Binding, v' (b.rename f) = v b) (b : Binding) : (e.rename f).overlay v' (b.rename f) = e.overlay v b := by
  have hget : (e.rename f).writes[b.rename f]? = e.writes[b]?.map (WriteSite.rename f) :=
    WriteSet.getElem?_rename hf e.writes b
  simp only [overlay, hget]
  cases hb : e.writes[b]? with
  | none => exact hv b
  | some site =>
    cases hs : site.value with
    | none => simp [WriteSite.rename, hs]
    | some w => simp [WriteSite.rename, hs, Value.rename_eq_self (he b site w hb hs)]

theorem Effects.overlayAll_rename (hchain : ∀ e ∈ chain, e.Mentions fun a => f a = a) {v v' : Binding → Option Value}
    (hv : ∀ b : Binding, v' (b.rename f) = v b) (b : Binding) :
    overlayAll (chain.map (rename f)) v' (b.rename f) = overlayAll chain v b := by
  induction chain generalizing v v' with
  | nil => exact hv b
  | cons e chain ih =>
    refine ih (fun g hg => hchain g (List.mem_cons_of_mem _ hg)) fun c => ?_
    exact overlay_rename hf (hchain e List.mem_cons_self) hv c

end Renamed

/-- Under the renamed chain a heap tells of the renamed bindings what under the chain it tells of the bindings, if only
new objects are renamed. -/
theorem Model.Under.get?_rename (hw : m₀.WellFormed) (hchain : ∀ e ∈ chain, e.Mentions m₀.HandedOut) {d : Nat}
    (h : m₀.Under chain m) (h' : m₀.Under (chain.map (Effects.rename (.shift m₀.nextObject d))) m') (b : Binding) :
    m'.get? (b.rename (.shift m₀.nextObject d)) = m.get? b := by
  rw [h.get?, h'.get?]
  refine Effects.overlayAll_rename (ObjectId.shift_injective _ d) (fun e he => ?_) (fun c => ?_) b
  · exact fun c s v hc hs => (hchain e he c s v hc hs).mono fun a ha => ObjectId.shift_of_lt ha
  · by_cases hc : m₀.HandedOut c.object
    · exact congrArg (fun o => m₀.get? ⟨o, c.key⟩) (ObjectId.shift_of_lt hc)
    · have hshift : (c.rename (.shift m₀.nextObject d)).object = ⟨c.object.index + d⟩ :=
        ObjectId.shift_of_le (Nat.not_lt.1 hc)
      rw [hw.get?_eq_none hc, hw.get?_eq_none]
      rw [hshift]
      exact Nat.not_lt.2 (Nat.le_trans (Nat.not_lt.1 hc) (Nat.le_add_right _ d))

end Independence
