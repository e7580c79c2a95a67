import Independence.Proofs.Evaluation.Freshness
import Independence.Proofs.Analysis.Ancestry
import Independence.Analysis.Interference
/-!
# The accesses of a replay

Which accesses a replay notes is read off its events: an access is noted where its location is known, with the
innermost candidate among the callables whose bodies are running then. In the events of a candidate's own call there
is always one.
-/

namespace Independence

variable {t : Table} {f g : CallableId} {calls : List CallableId} {es fs : List Event}

/-! ## Accesses in a list of events -/

/-- What an access looks at. -/
inductive Look where
  | read (b : Binding)
  | enumerate (o : ObjectId)

def Look.isRead : Look → Bool
  | .read _ => true
  | .enumerate _ => false

/-- A located access, with the innermost candidate that was running then, if one was. -/
structure Sight where
  look : Look
  location : Location
  within : Option CallableId

/-- The callables whose bodies run after the event, innermost first, if those of `calls` ran before. -/
def Event.callsAfter (calls : List CallableId) : Event → List CallableId
  | .enter f => f :: calls
  | .exit _ => calls.tail
  | .sideEffect _ | .register _ | .read _ _ | .enumerate _ _ => calls

/-- The access that the event is, if it is one and located. -/
def Event.sight? (t : Table) (calls : List CallableId) : Event → Option Sight
  | .read b (some l) => some ⟨.read b, l, calls.find? t.contains⟩
  | .enumerate o (some l) => some ⟨.enumerate o, l, calls.find? t.contains⟩
  | .read _ none | .enumerate _ none | .sideEffect _ | .register _ | .enter _ | .exit _ => none

/-- The located accesses among the events, in order, if the bodies of `calls` are running at the start. -/
def sights (t : Table) : List CallableId → List Event → List Sight
  | _, [] => []
  | calls, e :: es => (e.sight? t calls).toList ++ sights t (e.callsAfter calls) es

/-- All reads in order, then all enumerations in order. -/
def accesses (t : Table) (es : List Event) : List Sight :=
  (sights t [] es).filter (·.look.isRead) ++ (sights t [] es).filter (!·.look.isRead)

theorem sights_cons (calls : List CallableId) (e : Event) (es : List Event) :
    sights t calls (e :: es) = (e.sight? t calls).toList ++ sights t (e.callsAfter calls) es := rfl

theorem sights_append (calls : List CallableId) (es fs : List Event) :
    sights t calls (es ++ fs) = sights t calls es ++ sights t (es.foldl Event.callsAfter calls) fs := by
  induction es generalizing calls with
  | nil => rfl
  | cons e es ih => simp [sights, ih]

theorem mem_accesses {a : Sight} : a ∈ accesses t es ↔ a ∈ sights t [] es := by
  rw [accesses, List.mem_append, List.mem_filter, List.mem_filter]
  cases a.look.isRead <;> simp

/-- Every located read is an access. -/
theorem exists_sight_of_read {b : Binding} {l : Location} (h : .read b (some l) ∈ es) (calls : List CallableId) :
    ∃ a ∈ sights t calls es, a.look = .read b ∧ a.location = l := by
  induction es generalizing calls with
  | nil => cases h
  | cons e es ih =>
    rcases List.mem_cons.1 h with rfl | h
    · exact ⟨_, List.mem_append_left _ List.mem_cons_self, rfl, rfl⟩
    · obtain ⟨a, ha, hlook⟩ := ih h (e.callsAfter calls)
      exact ⟨a, List.mem_append_right _ ha, hlook⟩

/-- An access is within a candidate of the table whose body was running at the start or was entered. -/
theorem within_of_mem_sights {a : Sight} (ha : a ∈ sights t calls es) (hg : a.within = some g) :
    t.contains g = true ∧ (g ∈ calls ∨ .enter g ∈ es) := by
  induction es generalizing calls with
  | nil => cases ha
  | cons e es ih =>
    rcases List.mem_append.1 ha with ha | ha
    · have hwithin : a.within = calls.find? t.contains := by
        rw [Option.mem_toList] at ha
        unfold Event.sight? at ha
        split at ha <;> cases ha <;> rfl
      rw [hwithin] at hg
      exact ⟨List.find?_some hg, .inl (List.mem_of_find?_eq_some hg)⟩
    · obtain ⟨ht, hcalls | hes⟩ := ih ha
      · refine ⟨ht, ?_⟩
        cases e with
        | enter f =>
          rcases List.mem_cons.1 hcalls with rfl | h
          · exact .inr List.mem_cons_self
          · exact .inl h
        | exit f => exact .inl (List.mem_of_mem_tail hcalls)
        | _ => exact .inl hcalls
      · exact ⟨ht, .inr (List.mem_cons_of_mem e hes)⟩

/-! ## Well nested events -/

theorem Balanced.callsAfter (h : Balanced es) (calls : List CallableId) : es.foldl Event.callsAfter calls = calls := by
  induction h generalizing calls with
  | nil => rfl
  | @plain e es he _ ih =>
    have hcalls : e.callsAfter calls = calls := by
      cases e <;> first | rfl | cases he
    rw [List.foldl_cons, hcalls, ih]
  | call f _ _ ihes ihfs => simp [Event.callsAfter, ihes, ihfs]

/-- While the body of a candidate runs, every access is within a candidate. -/
theorem Balanced.within_isSome (h : Balanced es) (hf : t.contains f = true) (hcalls : f ∈ calls) :
    ∀ a ∈ sights t calls es, a.within.isSome := by
  induction h generalizing calls f with
  | nil =>
    intro a ha
    cases ha
  | @plain e es he _ ih =>
    intro a ha
    rcases List.mem_append.1 ha with ha | ha
    · rw [Option.mem_toList] at ha
      have hfind : (calls.find? t.contains).isSome := List.find?_isSome.2 ⟨f, hcalls, hf⟩
      unfold Event.sight? at ha
      split at ha <;> cases ha <;> exact hfind
    · refine ih hf ?_ a ha
      cases e <;> first | exact hcalls | cases he
  | @call c es fs hes _ ihes ihfs =>
    intro a ha
    -- The body entered is left again, so what follows sees the callables from before.
    have hsplit : sights t calls (.enter c :: (es ++ .exit c :: fs)) =
        sights t (c :: calls) es ++ sights t calls fs := by
      simp [sights, Event.sight?, Event.callsAfter, sights_append, hes.callsAfter]
    rw [hsplit] at ha
    rcases List.mem_append.1 ha with ha | ha
    · exact ihes hf (List.mem_cons_of_mem c hcalls) a ha
    · exact ihfs hf hcalls a ha

/-- In the events of a candidate's call every access is within a candidate. -/
theorem within_isSome_traceOf {m : Model} {call : Call} (hf : t.contains call.callee = true) :
    ∀ a ∈ sights t [] (finalState (m.traceOf call)).1, a.within.isSome := by
  rcases m.events_traceOf call with h | ⟨es, hes, h⟩
  · rw [h]
    intro a ha
    cases ha
  · have hsplit : sights t [] (.enter call.callee :: (es ++ [.exit call.callee])) = sights t [call.callee] es := by
      simp [sights, Event.sight?, Event.callsAfter, sights_append]
    rw [h, hsplit]
    exact hes.within_isSome hf List.mem_cons_self

/-! ## What the observer of a replay notes -/

def Sight.read? (reader : CallableId) (a : Sight) : Option (Access Binding) :=
  match a.look with
  | .read b => some ⟨b, a.location, a.within.getD reader⟩
  | .enumerate _ => none

def Sight.enumeration? (reader : CallableId) (a : Sight) : Option (Access ObjectId) :=
  match a.look with
  | .read _ => none
  | .enumerate o => some ⟨o, a.location, a.within.getD reader⟩

namespace Replay

theorem after_observer (t : Table) (reader : CallableId) (r : Replay) (es : List Event) :
    (Replay.observer t reader).after r es =
      ⟨es.foldl Event.callsAfter r.calls,
        r.reads ++ ((sights t r.calls es).filterMap (Sight.read? reader)).toArray,
        r.enumerations ++ ((sights t r.calls es).filterMap (Sight.enumeration? reader)).toArray⟩ := by
  induction es generalizing r with
  | nil => simp [Observer.after, sights]
  | cons e es ih =>
    have hstep : (Replay.observer t reader).after r (e :: es) =
      (Replay.observer t reader).after ((Replay.observer t reader).answer e r).2 es := rfl
    rw [hstep, ih]
    rw [sights_cons, List.foldl_cons, List.filterMap_append, List.filterMap_append]
    cases e with
    | read b l =>
      cases l <;> simp [Replay.observer, Event.sight?, Event.callsAfter, Sight.read?, Sight.enumeration?,
        Replay.running, List.filterMap_cons]
    | enumerate o l =>
      cases l <;> simp [Replay.observer, Event.sight?, Event.callsAfter, Sight.read?, Sight.enumeration?,
        Replay.running, List.filterMap_cons]
    | _ => simp [Replay.observer, Event.sight?, Event.callsAfter]

/-- The accesses that a replay of `f` notes when it sees these events. -/
def noted (t : Table) (f : CallableId) (es : List Event) : Accesses :=
  ((Replay.observer t f).after Replay.start es).accesses

theorem noted_eq (t : Table) (f : CallableId) (es : List Event) :
    noted t f es = ⟨(sights t [] es).filterMap (Sight.read? f), (sights t [] es).filterMap (Sight.enumeration? f)⟩ := by
  simp [noted, after_observer, Replay.start, Replay.accesses]

end Replay

end Independence
