import Independence.Proofs.Evaluation.Freshness
/-!
# Evaluating a call again

A call that is evaluated again later, on a heap that agrees with the earlier one on everything that was read,
takes the same course. The objects that it creates have higher numbers, and nothing else is different.
-/

namespace Independence

variable {m m' : Model} {n d : Nat} {σ τ α β γ δ : Type}

/-! ## Shifted numbers -/

/-- The numbers from `n` on are moved up by `d`. -/
def ObjectId.shift (n d : Nat) (a : ObjectId) : ObjectId := if a.index < n then a else ⟨a.index + d⟩

namespace ObjectId

theorem shift_of_lt {a : ObjectId} (h : a.index < n) : a.shift n d = a := if_pos h

theorem shift_of_le {a : ObjectId} (h : n ≤ a.index) : a.shift n d = ⟨a.index + d⟩ := if_neg (Nat.not_lt.2 h)

/-- To move numbers up keeps the order. -/
theorem compare_shift (n d : Nat) {a b : ObjectId} (h : compare a b = .lt) :
    compare (a.shift n d) (b.shift n d) = .lt := by
  have h : compare a.index b.index = .lt := h
  change compare (a.shift n d).index (b.shift n d).index = .lt
  rw [Nat.compare_eq_lt] at h ⊢
  unfold shift
  split <;> split <;> grind

theorem shift_injective (n d : Nat) : Function.Injective (shift n d) := by
  rintro ⟨i⟩ ⟨j⟩ h
  simp only [shift] at h
  split at h <;> split at h <;> simp at h ⊢ <;> omega

@[simp] theorem shift_zero (n : Nat) : shift n 0 = id := by
  funext a
  simp [shift]

end ObjectId

open ObjectId (shift shift_of_lt shift_of_le shift_injective)

/-! ## Two evaluations in parallel -/

/-- `o'` watches the later evaluation as `o` watches the earlier one: told of corresponding events in states that `R`
relates, the two answer alike, and their states stay related. A read of which the two heaps tell different things puts
`o` off, and it stays so. -/
structure Observer.Parallel (m m' : Model) (n d : Nat) (o : Observer σ) (o' : Observer τ) (R : σ → τ → Prop)
    (Off : σ → Prop) : Prop where
  answer : ∀ (e : Event) (s : σ) (t : τ), e.Shows (fun a => a.shift n d = a) → R s t →
    (o'.answer (e.rename (shift n d)) t).1 = (o.answer e s).1 ∧
      R (o.answer e s).2 (o'.answer (e.rename (shift n d)) t).2
  read : ∀ (b : Binding) (l : Option Location) (s : σ),
    m'.get? (b.rename (shift n d)) = m.get? b ∨ Off (o.answer (.read b l) s).2
  off : ∀ (e : Event) (s : σ), Off s → Off (o.answer e s).2

/-- The run with the numbers from `n` on moved up by `d`, and another observer's state. -/
def Run.shift (n d : Nat) (t : τ) (r : Run σ) : Run τ where
  observer := t
  nextObject := r.nextObject + d
  created := r.created.rename (.shift n d)
  writes := r.writes.rename (.shift n d)
  mayThrow := r.mayThrow
  locals := r.locals.map (.shift n d)

/-- The run started when at least `n` objects were handed out, and the running function allocated its own objects. -/
structure Run.Since (n : Nat) (r : Run σ) : Prop where
  le_next : n ≤ r.nextObject
  own : ∀ a ∈ r.locals, a ∈ r.created

/-- What a run keeps while it goes on: the objects created, and that its observer is off. -/
structure Run.Onward (n : Nat) (Off : σ → Prop) (r s : Run σ) : Prop where
  since : s.Since n
  created : ∀ a ∈ r.created, a ∈ s.created
  off : Off r.observer → Off s.observer

/-- `y` does for the later evaluation what `x` does for the earlier one, with the new numbers moved up by `d`, unless
`x` is put off. -/
def Reproduced (n d : Nat) (R : σ → τ → Prop) (Off : σ → Prop) {α β : Type} (g : α → β) (x : Eval σ α)
    (y : Eval τ β) : Prop :=
  ∀ r : Run σ, r.Since n → r.Onward n Off (finalState (x r)) ∧ ∀ t, R r.observer t →
    Off (finalState (x r)).observer ∨ ∃ t', R (finalState (x r)).observer t' ∧
      y (r.shift n d t) = mapOutcome g (Run.shift n d t') (x r)

theorem openWrite_of_resolve {o : Observer σ} {t : Target} {l : Location} {r : Run σ} {a : ObjectId} (k : Key)
    (h : t.resolve l r = .ok a r) :
    openWrite o t k l r = mapOutcome (fun _ => a) id (announceWrite o ⟨a, k⟩ l r) := by
  simp only [openWrite, Bind.bind, EStateM.bind, h]
  cases announceWrite o ⟨a, k⟩ l r <;> rfl

namespace Reproduced

variable {R : σ → τ → Prop} {Off : σ → Prop}

theorem of_silent {g : α → β} {x : Eval σ α} {y : Eval τ β}
    (hx : ∀ r, (finalState (x r)).nextObject = r.nextObject ∧ (finalState (x r)).created = r.created ∧
      (finalState (x r)).locals = r.locals ∧ (finalState (x r)).observer = r.observer)
    (hy : ∀ r t, y (r.shift n d t) = mapOutcome g (Run.shift n d t) (x r)) : Reproduced n d R Off g x y := by
  intro r hr
  obtain ⟨hn, hc, hl, ho⟩ := hx r
  refine ⟨⟨⟨by rw [hn]; exact hr.le_next, by rw [hl, hc]; exact hr.own⟩, fun a ha => hc ▸ ha, fun h => ho ▸ h⟩, ?_⟩
  exact fun t ht => .inr ⟨t, ho ▸ ht, hy r t⟩

theorem bind {g : α → β} {h : γ → δ} {x : Eval σ α} {y : Eval τ β} {k : α → Eval σ γ} {l : β → Eval τ δ}
    (hx : Reproduced n d R Off g x y) (hk : ∀ a, Reproduced n d R Off h (k a) (l (g a))) :
    Reproduced n d R Off h (x >>= k) (y >>= l) := by
  intro r hr
  rw [finalState_bind]
  simp only [Bind.bind, EStateM.bind]
  obtain ⟨hon, hy⟩ := hx r hr
  cases hxr : x r with
  | error e s =>
    rw [hxr] at hon hy
    refine ⟨hon, fun t ht => (hy t ht).imp_right ?_⟩
    rintro ⟨t', ht', he⟩
    exact ⟨t', ht', by rw [he]; rfl⟩
  | ok a s =>
    rw [hxr] at hon hy
    have hon : r.Onward n Off s := hon
    obtain ⟨hon', hl⟩ := hk a s hon.since
    refine ⟨⟨hon'.since, fun b hb => hon'.created b (hon.created b hb), fun h => hon'.off (hon.off h)⟩, fun t ht => ?_⟩
    -- Put off in the first part, the whole is put off; otherwise the second part goes on from related states.
    rcases hy t ht with hoff | ⟨t', ht', he⟩
    · exact .inl (hon'.off hoff)
    · rw [he]
      exact hl t' ht'

theorem resolve (t : Target) (l : Location) (ht : t.AllObjects fun a => a.shift n d = a) :
    Reproduced n d R Off (shift n d) (t.resolve l) (t.resolve l) := by
  cases t with
  | object a => exact of_silent (fun r => ⟨rfl, rfl, rfl, rfl⟩) fun r t => congrArg (EStateM.Result.ok · _) ht.symm
  | allocated i =>
    refine of_silent (fun r => ?_) fun r t => ?_
    · rw [Target.resolve_allocated]
      cases r.locals[i]? <;> exact ⟨rfl, rfl, rfl, rfl⟩
    · rw [Target.resolve_allocated, Target.resolve_allocated]
      simp only [Run.shift, Array.getElem?_map]
      cases r.locals[i]? <;> rfl

theorem storeWrite (b : Binding) (s : WriteSite) : Reproduced n d R Off id (storeWrite b s)
    (storeWrite (b.rename (shift n d)) (s.rename (shift n d))) :=
  of_silent (fun _ => ⟨rfl, rfl, rfl, rfl⟩) fun r t => by
    have hw := WriteSet.rename_insert (shift_injective n d) r.writes b s
    simp [Independence.storeWrite, mapOutcome, Run.shift, modify_apply, hw]

theorem allocate : Reproduced n d R Off id (modify Run.allocate) (modify Run.allocate) := by
  intro r hr
  have ho : (⟨r.nextObject + d⟩ : ObjectId) = shift n d ⟨r.nextObject⟩ :=
    (shift_of_le (a := ⟨r.nextObject⟩) hr.le_next).symm
  have ha : ∀ t : τ, (r.shift n d t).allocate = r.allocate.shift n d t := by
    intro t
    simp only [Run.allocate, Run.shift, ho, ObjectSet.rename_insert, Array.map_push, Run.mk.injEq, and_true,
      true_and]
    omega
  have hsince : r.allocate.Since n := by
    refine ⟨Nat.le_succ_of_le hr.le_next, fun a ha => Std.ExtTreeSet.mem_insert.2 ?_⟩
    rcases Array.mem_push.1 ha with ha | rfl
    · exact .inr (hr.own a ha)
    · exact .inl (by simp)
  refine ⟨⟨hsince, fun a ha => Std.ExtTreeSet.mem_insert.2 (.inr ha), fun h => h⟩, fun t ht => .inr ⟨t, ht, ?_⟩⟩
  exact congrArg (EStateM.Result.ok ()) (ha t)

theorem noteThrow (a : Abrupt) : Reproduced n d R Off id (noteThrow a) (noteThrow a) :=
  of_silent (fun _ => ⟨rfl, rfl, rfl, rfl⟩) fun _ _ => rfl

section Watched
variable {o : Observer σ} {o' : Observer τ} (P : o.Parallel m m' n d o' R Off)
include P

theorem onward_observe {r : Run σ} (hr : r.Since n) (e : Event) : r.Onward n Off (r.observe o e) :=
  ⟨⟨hr.le_next, hr.own⟩, fun _ ha => ha, P.off e _⟩

theorem notify (e : Event) (he : e.Shows fun a => a.shift n d = a) :
    Reproduced n d R Off id (notify o e) (notify o' (e.rename (shift n d))) :=
  fun _ hr => ⟨onward_observe P hr e, fun t ht => .inr ⟨_, (P.answer e _ t he ht).2, rfl⟩⟩

theorem announce (e : SideEffect) (he : (Event.sideEffect e).Shows fun a => a.shift n d = a) :
    Reproduced n d R Off id (announce o e) (announce o' (e.rename (shift n d))) := by
  intro r hr
  rw [finalState_announce]
  refine ⟨onward_observe P hr _, fun t ht => .inr ⟨_, (P.answer _ _ t he ht).2, ?_⟩⟩
  have hanswer := (P.answer _ _ t he ht).1
  have hsame : Event.rename (shift n d) (.sideEffect e) = .sideEffect (e.rename (shift n d)) := rfl
  rw [hsame] at hanswer ⊢
  simp only [Independence.announce, Run.shift, hanswer]
  cases (o.answer (.sideEffect e) r.observer).1 <;> rfl

/-- The run creates the object of a write, or it is one that keeps its number. -/
theorem announceWrite {b : Binding} {r : Run σ} (hb : b.object ∉ r.created → b.object.shift n d = b.object)
    (hr : r.Since n) (l : Location) : r.Onward n Off (finalState (announceWrite o b l r)) ∧ ∀ t, R r.observer t →
      Off (finalState (Independence.announceWrite o b l r)).observer ∨
      ∃ t', R (finalState (Independence.announceWrite o b l r)).observer t' ∧
        Independence.announceWrite o' (b.rename (shift n d)) l (r.shift n d t) =
          mapOutcome id (Run.shift n d t') (Independence.announceWrite o b l r) := by
  have hc : ∀ t : τ, (r.shift n d t).created.contains (b.rename (shift n d)).object = r.created.contains b.object :=
    fun t => ObjectSet.contains_rename (shift_injective n d) r.created b.object
  simp only [Independence.announceWrite, hc]
  cases h : r.created.contains b.object with
  | true => exact ⟨⟨hr, fun _ ha => ha, fun h => h⟩, fun t ht => .inr ⟨t, ht, rfl⟩⟩
  | false =>
    have hshown := hb (by simp [Std.ExtTreeSet.mem_iff_contains, h])
    exact announce P ⟨.wroteProperty b, some l⟩ hshown r hr

theorem openWrite (t : Target) (k : Key) (l : Location) (ht : t.AllObjects fun a => a.shift n d = a) :
    Reproduced n d R Off (shift n d) (openWrite o t k l) (openWrite o' t k l) := by
  intro r hr
  -- The object is one that keeps its number, or the running function allocated it.
  have hfound : ∀ a, t.resolve l r = .ok a r → (a ∉ r.created → a.shift n d = a) →
      (∀ u : τ, t.resolve l (r.shift n d u) = .ok (a.shift n d) (r.shift n d u)) →
      r.Onward n Off (finalState (Independence.openWrite o t k l r)) ∧ ∀ u, R r.observer u →
        Off (finalState (Independence.openWrite o t k l r)).observer ∨
        ∃ u', R (finalState (Independence.openWrite o t k l r)).observer u' ∧
          Independence.openWrite o' t k l (r.shift n d u) =
            mapOutcome (shift n d) (Run.shift n d u') (Independence.openWrite o t k l r) := by
    intro a ha hshown ha'
    obtain ⟨hon, hy⟩ := announceWrite P (b := ⟨a, k⟩) hshown hr l
    rw [openWrite_of_resolve k ha]
    cases hx : Independence.announceWrite o ⟨a, k⟩ l r
    all_goals
      rw [hx] at hon hy
      refine ⟨hon, fun u hu => (hy u hu).imp_right ?_⟩
      rintro ⟨u', hu', he⟩
      refine ⟨u', hu', (openWrite_of_resolve k (ha' u)).trans ?_⟩
      exact congrArg (mapOutcome (fun _ => a.shift n d) id) he
  cases t with
  | object a => exact hfound a rfl (fun _ => ht) fun u => congrArg (EStateM.Result.ok · (r.shift n d u)) ht.symm
  | allocated i =>
    cases hi : r.locals[i]? with
    | some a =>
      have hresolve : (Target.allocated i).resolve l r = .ok a r := by
        rw [Target.resolve_allocated, hi]
      have hmem : a ∈ r.created := hr.own a (Array.mem_of_getElem? hi)
      refine hfound a hresolve (fun h => absurd hmem h) fun u => ?_
      rw [Target.resolve_allocated]
      simp [Run.shift, hi]
    | none =>
      have hnone : ∀ {υ : Type} (o : Observer υ) (s : Run υ), s.locals[i]? = none →
          Independence.openWrite o (.allocated i) k l s = .error (.notAllocated i l) s := by
        intro υ o s hs
        simp only [Independence.openWrite, Bind.bind, EStateM.bind, Target.resolve_allocated, hs]
      rw [hnone o r hi]
      refine ⟨⟨hr, fun _ ha => ha, fun h => h⟩, fun u hu => .inr ⟨u, hu, ?_⟩⟩
      exact hnone o' _ (by simp [Run.shift, hi])

theorem framed (c : CallableId) {x : Eval σ Flow} {y : Eval τ Flow} (hx : Reproduced n d R Off id x y) :
    Reproduced n d R Off id (framed o c x) (framed o' c y) := by
  intro r hr
  have henter : ∀ t : τ, ({ (r.shift n d t).observe o' (.enter c) with locals := #[] } : Run τ) =
      Run.shift n d (o'.answer (.enter c) t).2 { r.observe o (.enter c) with locals := #[] } := by
    intro t
    simp [Run.shift, Run.observe]
  obtain ⟨hon, hy⟩ := hx { r.observe o (.enter c) with locals := #[] } ⟨hr.le_next, by simp⟩
  have hleave : ∀ s : Run σ, Run.Onward n Off { r.observe o (.enter c) with locals := #[] } s →
      r.Onward n Off { s.observe o (.exit c) with locals := r.locals } := fun s hs =>
    ⟨⟨hs.since.le_next, fun a ha => hs.created a (hr.own a ha)⟩, hs.created,
      fun h => P.off _ _ (hs.off (P.off _ _ h))⟩
  simp only [Independence.framed, henter]
  have hin := fun t ht => hy (o'.answer (.enter c) t).2 (P.answer (.enter c) r.observer t trivial ht).2
  cases hxr : x { r.observe o (.enter c) with locals := #[] } with
  | ok flow s =>
    rw [hxr] at hon hin
    refine ⟨hleave s hon, fun t ht => (hin t ht).imp (P.off _ _) ?_⟩
    rintro ⟨t', ht', he⟩
    exact ⟨_, (P.answer (.exit c) _ t' trivial ht').2, by rw [he]; rfl⟩
  | error e s =>
    rw [hxr] at hon hin
    refine ⟨hleave s hon, fun t ht => (hin t ht).imp (P.off _ _) ?_⟩
    rintro ⟨t', ht', he⟩
    exact ⟨_, (P.answer (.exit c) _ t' trivial ht').2, by rw [he]; rfl⟩

theorem readIs (b : Binding) (l : Location) (v : Value) (hv : v.AllObjects fun a => a.shift n d = a) :
    Reproduced n d R Off id (readIs m o b l v) (readIs m' o' (b.rename (shift n d)) l v) := by
  intro r hr
  refine ⟨onward_observe P hr (.read b (some l)), fun t ht => ?_⟩
  rcases P.read b (some l) r.observer with hget | hoff
  · refine .inr ⟨_, (P.answer (.read b (some l)) _ t trivial ht).2, ?_⟩
    have hget : m'.heap.get? (b.rename (shift n d)) = m.heap.get? b := hget
    have hcur : ∀ t : τ, ((r.shift n d t).current? m'.heap (b.rename (shift n d)) == some v) =
        (r.current? m.heap b == some v) := by
      intro t
      simp only [Run.current?, Run.shift, WriteSet.getElem?_rename (shift_injective n d)]
      cases r.writes[b]? with
      | none => simp [hget]
      | some s =>
        have hb := fun w => Value.rename_beq (shift_injective n d) w v
        rw [Value.rename_eq_self hv] at hb
        cases hs : s.value with
        | none => simp [WriteSite.rename, hs]
        | some w => simpa [WriteSite.rename, hs] using hb w
    exact congrArg (EStateM.Result.ok · _) (hcur _)
  · exact .inl hoff

/-- The two evaluations of a call, the earlier and the later one, are in lockstep. -/
theorem simulation : Simulation m m' o o' (shift n d) (@Reproduced σ τ n d R Off) where
  pure _ _ := .of_silent (fun _ => ⟨rfl, rfl, rfl, rfl⟩) fun _ _ => rfl
  throw _ _ _ := .of_silent (fun _ => ⟨rfl, rfl, rfl, rfl⟩) fun _ _ => rfl
  bind := .bind
  framed c _ _ := framed P c
  resolve := .resolve
  notify e _ := notify P e
  assign _ _ := announce P _ trivial
  openWrite := openWrite P
  storeWrite := .storeWrite
  allocate := .allocate
  noteThrow := .noteThrow
  readIs := readIs P

end Watched

end Reproduced

theorem Run.effects_shift (r : Run σ) {flow : Flow} (hv : ∀ v, flow = .returned v → v.rename (.shift n d) = v) (t : τ) :
    (r.shift n d t).effects flow = (r.effects flow).rename (.shift n d) := by
  have hc : (r.shift n d t).completion flow = (r.completion flow).rename (.shift n d) := by
    cases flow with
    | next =>
      cases hm : r.mayThrow <;> simp [Run.completion, Run.shift, hm, Completion.rename, Value.undefined, Value.rename]
    | returned v => cases hm : r.mayThrow <;> simp [Run.completion, Run.shift, hm, Completion.rename, hv v rfl]
    | threw a => rfl
  simp only [Run.effects, Effects.rename, hc]
  rfl

namespace Model

/-- A call evaluated in two places takes the same course, with the numbers of new objects moved up, as long as the first
observer is not put off. -/
theorem evaluate_shift {o : Observer σ} {o' : Observer τ} {R : σ → τ → Prop} {Off : σ → Prop}
    (P : o.Parallel m m' n d o' R Off) (hfile : m'.file = m.file) (hfuns : m'.functions = m.functions)
    (hbodies : ∀ g ∈ m.functions, g.body.AllObjects fun a => a.shift n d = a) (hn : n ≤ m.nextObject)
    (hd : m'.nextObject = m.nextObject + d) (call : Call) {s : σ} {t : τ} (hst : R s t) :
    Off (finalState (Model.evaluate o call (s, m))).1 ∨ ∃ t', R (finalState (Model.evaluate o call (s, m))).1 t' ∧
      Model.evaluate o' call (t, m') = mapOutcome (Effects.rename (shift n d))
        (fun p => (t', { m' with nextObject := p.2.nextObject + d, evaluations := m'.evaluations + 1 }))
        (Model.evaluate o call (s, m)) := by
  have hinv := ((Reproduced.simulation P).invoke hfile hfuns hbodies (maxCallDepth + 1) call.callee
    call.location (.start s m.nextObject) ⟨hn, by simp [Run.start]⟩).2 t hst
  have hstart : (Run.start s m.nextObject).shift n d t = .start t m'.nextObject := by
    simp [Run.start, Run.shift, hd]
  rw [hstart] at hinv
  simp only [Model.evaluate]
  cases hi : invoke m o (maxCallDepth + 1) call.callee call.location (.start s m.nextObject) with
  | ok flow r =>
    rw [hi] at hinv
    have hreturns := Returns.invoke hbodies _ _ _ _ _ flow hi
    have hflow : ∀ v, flow = .returned v → v.rename (shift n d) = v := by
      rintro v rfl
      exact Value.rename_eq_self hreturns
    refine hinv.imp_right ?_
    rintro ⟨t', ht', he⟩
    refine ⟨t', ht', ?_⟩
    rw [he]
    simp only [mapOutcome, id_eq, r.effects_shift hflow]
    rfl
  | error e r =>
    rw [hi] at hinv
    refine hinv.imp_right ?_
    rintro ⟨t', ht', he⟩
    exact ⟨t', ht', by rw [he]; rfl⟩

/-! ## The same course -/

/-- The heaps agree on everything that the events read. -/
def AgreesOn (m m' : Model) (n d : Nat) (es : List Event) : Prop :=
  ∀ (b : Binding) (l : Option Location), .read b l ∈ es → m'.get? (b.rename (shift n d)) = m.get? b

/-- Traces are put off by a read on which the heaps do not agree. -/
theorem parallel_trace (m m' : Model) (n d : Nat) : Observer.trace.Parallel m m' n d .trace
    (fun es es' => es' = es.map (Event.rename (shift n d))) fun es => ¬ m.AgreesOn m' n d es where
  answer e es _ _ h := ⟨rfl, by simp [Observer.trace, h]⟩
  read b l es := by
    by_cases hget : m'.get? (b.rename (shift n d)) = m.get? b
    · exact .inl hget
    · exact .inr fun h => hget (h b l (List.mem_append_right es (List.mem_singleton_self _)))
  off e es h hag := h fun b l hb => hag b l (List.mem_append_left [e] hb)

/-- The call is evaluated later on a heap that agrees with the earlier one on everything that was read: it takes the
same course with the numbers of new objects moved up. -/
theorem traceOf_shift (hfile : m'.file = m.file) (hfuns : m'.functions = m.functions)
    (hbodies : ∀ g ∈ m.functions, g.body.AllObjects m.HandedOut) (hd : m'.nextObject = m.nextObject + d) (call : Call)
    (hag : m.AgreesOn m' m.nextObject d (finalState (m.traceOf call)).1) :
    m'.traceOf call = mapOutcome (Effects.rename (shift m.nextObject d))
      (fun p => (p.1.map (Event.rename (shift m.nextObject d)),
        { m' with nextObject := p.2.nextObject + d, evaluations := m'.evaluations + 1 })) (m.traceOf call) := by
  -- Only new numbers move, and the program mentions none of them.
  have hfix : ∀ g ∈ m.functions, g.body.AllObjects fun a => a.shift m.nextObject d = a :=
    fun g hg => (hbodies g hg).mono fun a ha => shift_of_lt ha
  obtain ⟨es, hes, heval⟩ := (evaluate_shift (parallel_trace m m' m.nextObject d) hfile hfuns hfix (Nat.le_refl _) hd
    call (s := []) (t := []) rfl).resolve_left fun h => h hag
  have heval : m'.traceOf call = _ := heval
  rw [heval, hes]
  change mapOutcome _ _ (m.traceOf call) = _
  cases hx : Model.evaluate .trace call ([], m) <;> simp only [traceOf, hx] <;> rfl

end Model

/-! ## The renaming of what was created -/

/-- Renamings that agree on the program's objects and on what was created rename the effects alike. -/
theorem Effects.Fresh.rename_congr {p : ObjectId → Prop} {e : Effects} {f g : ObjectId → ObjectId}
    (he : e.Fresh p m m') (hp : ∀ a, p a → f a = g a) (hc : ∀ a ∈ e.created, f a = g a) : e.rename f = e.rename g := by
  have hw : WriteSet.rename f e.writes = WriteSet.rename g e.writes := by
    refine WriteSet.rename_congr fun b s hb => ⟨?_, ?_⟩
    · have hm : b ∈ e.writes := Std.ExtTreeMap.mem_iff_isSome_getElem?.2 (by simp [hb])
      exact congrArg (Binding.mk · b.key) ((he.writes b hm).elim (hp _) (hc _))
    · cases hs : s.value with
      | none => simp [WriteSite.rename, hs]
      | some v => simp [WriteSite.rename, hs, Value.rename_congr ((he.values b s v hb hs).mono hp)]
  simp only [Effects.rename, hw, ObjectSet.rename_congr hc, Completion.rename_congr (he.result.mono hp)]

/-- To move the numbers of new objects up is to give each object created the one created in its place. -/
theorem Effects.Fresh.rename_shift {p : ObjectId → Prop} {e : Effects} (he : e.Fresh p m m')
    (hp : ∀ a, p a → m.HandedOut a) (d : Nat) :
    e.rename (shift m.nextObject d) =
      e.rename (ObjectSet.matching e.created (e.rename (shift m.nextObject d)).created) := by
  refine he.rename_congr (fun a ha => ?_) fun a ha => ?_
  · have hn : a ∉ e.created := fun h => absurd (hp a ha) (Nat.not_lt.2 ((he.mem_created a).1 h).1)
    rw [ObjectSet.matching_of_not_mem _ hn, shift_of_lt (hp a ha)]
  · exact (ObjectSet.matching_rename (fun _ _ _ _ => ObjectId.compare_shift m.nextObject d) ha).symm

end Independence
