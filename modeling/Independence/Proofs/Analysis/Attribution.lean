import Independence.Proofs.Evaluation.CallStack
import Independence.Proofs.Evaluation.ScopedCommit
import Independence.Proofs.Analysis.Replay
/-!
# Attribution

A replay keeps a call stack of its own from the events it sees. It is the stack of the bodies that are running, so each
access is attributed to the innermost candidate on that stack.
-/

namespace Independence

open Chronicle

variable {α σ : Type} {m : Model} {t : Table} {f : CallableId} {limit more : Nat} {calls after : List CallableId}
  {c : Chronicle} {ending : Ending}

/-! ## Accesses in a chronicle -/

/-- What the event reads and where, if it is a read whose location is known. -/
def Event.read? : Event → Option (Binding × Location)
  | .read b (some l) => some (b, l)
  | .read _ none | .enumerate _ _ | .sideEffect _ | .register _ | .enter _ | .exit _ => none

/-- What the event enumerates and where, if it is an enumeration whose location is known. -/
def Event.enumeration? : Event → Option (ObjectId × Location)
  | .enumerate o (some l) => some (o, l)
  | .enumerate _ none | .read _ _ | .sideEffect _ | .register _ | .enter _ | .exit _ => none

/-- The access that the entry is, attributed to the innermost candidate of those running. -/
def Chronicle.Entry.access? (of : Event → Option (α × Location)) (t : Table) (x : Entry) : Option (Access α) := do
  let (target, location) ← x.step.event?.bind of
  let within ← x.calls.find? t.contains
  return ⟨target, location, within⟩

/-- The sight that the entry is, with its own running calls in place of a stack followed from the events. -/
def Chronicle.Entry.sight? (t : Table) (x : Entry) : Option Sight := x.step.event?.bind (·.sight? t x.calls)

theorem Event.read?_sight? {g : CallableId} (hg : calls.find? t.contains = some g) (e : Event) :
    (e.sight? t calls).bind (Sight.read? f) = e.read?.map fun a => ⟨a.1, a.2, g⟩ := by
  cases e with
  | read b l => cases l <;> simp [Event.sight?, Sight.read?, Event.read?, hg]
  | enumerate o l => cases l <;> simp [Event.sight?, Sight.read?, Event.read?]
  | _ => rfl

theorem Event.enumeration?_sight? {g : CallableId} (hg : calls.find? t.contains = some g) (e : Event) :
    (e.sight? t calls).bind (Sight.enumeration? f) = e.enumeration?.map fun a => ⟨a.1, a.2, g⟩ := by
  cases e with
  | read b l => cases l <;> simp [Event.sight?, Sight.enumeration?, Event.enumeration?]
  | enumerate o l => cases l <;> simp [Event.sight?, Sight.enumeration?, Event.enumeration?, hg]
  | _ => rfl

/-- Where a candidate runs at every entry, the accesses noted are those of the entries. -/
theorem filterMap_access? {of : Event → Option (α × Location)} {note : Sight → Option (Access α)}
    (hof : ∀ (e : Event) (calls : List CallableId) (g : CallableId), calls.find? t.contains = some g →
      (e.sight? t calls).bind note = (of e).map fun a => ⟨a.1, a.2, g⟩)
    (hc : ∀ x ∈ c, (x.calls.find? t.contains).isSome) :
    (c.filterMap (Entry.sight? t)).filterMap note = c.filterMap (Entry.access? of t) := by
  rw [List.filterMap_filterMap]
  refine List.filterMap_congr fun x hx => ?_
  obtain ⟨g, hg⟩ := Option.isSome_iff_exists.1 (hc x hx)
  cases he : x.step.event? with
  | none => simp [Entry.sight?, Entry.access?, he]
  | some e =>
    simp only [Entry.sight?, Entry.access?, he, Option.bind_some, hof e x.calls g hg, hg]
    cases of e <;> rfl

/-! ## The stack that an observer follows -/

theorem callsAfter_of_openAfter? {es : List Event} (h : openAfter? limit calls es = some after) :
    es.foldl Event.callsAfter calls = after := by
  induction es generalizing calls with
  | nil => exact Option.some_inj.1 h
  | cons e es ih =>
    rw [openAfter?, List.foldlM_cons] at h
    obtain ⟨next, he, h⟩ := Option.bind_eq_some_iff.1 h
    have hnext : e.callsAfter calls = next := by
      cases e with
      | enter f => exact (Option.ite_none_right_eq_some.1 he).2 |> Option.some_inj.1
      | exit f => exact (Option.ite_none_right_eq_some.1 he).2 |> Option.some_inj.1
      | _ => exact Option.some_inj.1 he
    rw [List.foldl_cons, hnext]
    exact ih h

theorem sights_told (h : nest? limit calls c = some after) : sights t calls (told c) = c.filterMap (Entry.sight? t) := by
  induction c generalizing calls with
  | nil => rfl
  | cons x c ih =>
    rw [nest?_cons] at h
    obtain ⟨next, hx, hc⟩ := Option.bind_eq_some_iff.1 h
    obtain ⟨hrunning, hopen⟩ := Option.ite_none_right_eq_some.1 hx
    obtain ⟨step, running⟩ := x
    have hrunning : running = step.running calls := hrunning
    have hsight : sights t calls step.event?.toList = (Entry.sight? t ⟨step, running⟩).toList := by
      subst hrunning
      cases step with
      | event e => cases e <;> simp [Step.event?, sights, Entry.sight?, Event.sight?, Step.running]
      | _ => rfl
    rw [told_cons, sights_append, callsAfter_of_openAfter? hopen, ih hc, hsight]
    cases hs : Entry.sight? t ⟨step, running⟩ <;> simp [hs]

/-- While a candidate is evaluated, a candidate runs at every entry. -/
theorem Model.candidate_runs_chronicle (o : Observer σ) {call : Call} (hcall : t.contains call.callee = true) (s : σ)
    (m : Model) : ∀ x ∈ (finalState (Model.chronicle o call ((s, []), m))).1.2, (x.calls.find? t.contains).isSome := by
  intro x hx
  have hmem : call.callee ∈ x.calls := by
    rcases Model.chronicle_called o call s m with h | ⟨inner, ending, h, hcourse⟩
    · rw [h] at hx
      cases hx
    · rw [h] at hx
      exact (suffix_of_mem_called hcourse.suffix x hx).subset (List.mem_singleton_self _)
  exact List.find?_isSome.2 ⟨_, hmem, hcall⟩

/-! ## Replays -/

namespace Replay

theorem calls_after (h : openAfter? limit [] (told c) = some after) :
    ((Replay.observer t f).after Replay.start (told c)).calls = after := by
  rw [after_observer]
  exact callsAfter_of_openAfter? h

theorem evaluate_eq_after (t : Table) (f : CallableId) (call : Call) (m : Model) :
    (finalState (Model.evaluate (Replay.observer t f) call (Replay.start, m))).1 =
      (Replay.observer t f).after Replay.start
        (told (finalState (Model.chronicle (Replay.observer t f) call ((Replay.start, []), m))).1.2) := by
  rw [← Model.after_chronicle, Model.evaluate_chronicle _ _ _ []]
  cases Model.chronicle (Replay.observer t f) call ((Replay.start, []), m) <;> rfl

end Replay

theorem Analysis.replay_evaluates {setup : Setup} {r : Record} {s s' : Session Model} {seen : Accesses}
    (h : Analysis.replay setup r s = .ok seen s') : ∃ call q,
      s.placeholders.synthesize r.owner r.signature r.candidate.request.shape = .ok (call, q) ∧
      seen = (finalState (Model.evaluate (Replay.observer s.table r.owner) call
        (Replay.start, s.evaluator.insideAll ((s.table.ancestors r.owner).map (·.effects))))).1.accesses := by
  simp only [replay, Bind.bind, EStateM.bind, get_apply] at h
  cases hsyn : s.placeholders.synthesize r.owner r.signature r.candidate.request.shape with
  | error p =>
    rw [hsyn] at h
    cases h
  | ok result =>
    obtain ⟨call, q⟩ := result
    refine ⟨call, q, rfl, ?_⟩
    rw [hsyn] at h
    have hseen : seen = (Evaluator.withinAll ((s.table.ancestors r.owner).map (·.effects))
        (watchReplay s.table r.owner call) s.evaluator).1 := by
      cases h
      rfl
    rw [hseen, Evaluator.fst_withinAll]
    generalize s.evaluator.insideAll _ = n
    simp only [watchReplay, Evaluator.evaluate]
    cases Model.evaluate (Replay.observer s.table r.owner) call (Replay.start, n) <;> rfl

/-- Whatever the program, the call and the observer, and however the evaluation ends: the calls in what the observer is
told are well nested, at most one more than the depth limit are open at once, and those open at a step are the bodies
that are running then.

So in every replay of a record the stack that the replay keeps is that of the running bodies at each step, and empty in
the end. The accesses noted are all the located ones, each attributed to the innermost running body of a candidate. -/
theorem calls_nested_and_accesses_attributed :
    (∀ (σ : Type) (o : Observer σ) (call : Call) (s : σ) (m : Model),
      let x := Model.chronicle o call ((s, []), m)
      Model.evaluate o.recording call ((s, #[]), m) = mapOutcome id (fun p => (recorded p.1, p.2)) x ∧
      (finalState x).1.2.Nested (maxCallDepth + 1)) ∧
    ∀ (setup : Setup) (r : Record) (s s' : Session Model) (seen : Accesses),
      r ∈ s.table.records → Analysis.replay setup r s = .ok seen s' → ∃ call : Call,
        call.callee = r.owner ∧
        let o := Replay.observer s.table r.owner
        let m := s.evaluator.insideAll ((s.table.ancestors r.owner).map (·.effects))
        let replay := (finalState (Model.evaluate o call (Replay.start, m))).1
        let log := (finalState (Model.chronicle o call ((Replay.start, []), m))).1.2
        seen = replay.accesses ∧
        replay.calls = [] ∧
        (∀ before step calls rest, log = before ++ ⟨step, calls⟩ :: rest → step.isCall = false →
          (o.after Replay.start (told before)).calls = calls) ∧
        seen = ⟨log.filterMap (Entry.access? Event.read? s.table),
          log.filterMap (Entry.access? Event.enumeration? s.table)⟩ ∧
        ∀ x ∈ log, ∃ g, x.calls.find? s.table.contains = some g := by
  refine ⟨fun σ o call s m => ?_, fun setup r s s' seen hr h => ?_⟩
  · exact ⟨Model.evaluate_recording_chronicle o call s [] m, Model.nested_chronicle o call s m⟩
  · obtain ⟨call, q, hsyn, hseen⟩ := Analysis.replay_evaluates h
    obtain ⟨-, hcallee, -⟩ := Placeholders.of_synthesize hsyn
    have hcontains : s.table.contains call.callee = true := by
      rw [hcallee]
      exact Table.contains_iff.2 (List.mem_map_of_mem hr)
    refine ⟨call, hcallee, ?_⟩
    generalize s.evaluator.insideAll _ = m at hseen
    have hnested := Model.nested_chronicle (Replay.observer s.table r.owner) call Replay.start m
    have hruns := Model.candidate_runs_chronicle (Replay.observer s.table r.owner) hcontains Replay.start m
    have hfinal := Replay.evaluate_eq_after s.table r.owner call m
    refine ⟨hseen, ?_, fun before step calls rest hlog hstep => ?_, ?_, fun x hx => ?_⟩
    · rw [hfinal]
      exact Replay.calls_after hnested.closed
    · exact Replay.calls_after (hnested.running before step calls rest hlog hstep)
    · rw [hseen, hfinal]
      refine (Replay.noted_eq _ _ _).trans ?_
      rw [sights_told (Model.nest?_chronicle _ call Replay.start m),
        filterMap_access? (fun e _ _ hg => Event.read?_sight? hg e) hruns,
        filterMap_access? (fun e _ _ hg => Event.enumeration?_sight? hg e) hruns]
    · exact Option.isSome_iff_exists.1 (hruns x hx)

/-- Both functions are candidates. In the replay of the first one, what the second one reads is attributed to the second
one. -/
theorem calls_nested_and_accesses_attributed_calling : ∃ (s s' : Session Model) (r : Record) (seen : Accesses),
    Analysis.discover ⟨.empty, 2⟩ (.start .calling [.ofCallable ⟨0⟩, .ofCallable ⟨1⟩] (.new ⟨false, false⟩ none [])) =
      .ok () s ∧
    r ∈ s.table.records ∧ Analysis.replay ⟨.empty, 2⟩ r s = .ok seen s' ∧
    seen.reads.map (·.within) = [⟨1⟩, ⟨1⟩, ⟨0⟩] ∧ ∃ (call : Call) (log : Chronicle), call.callee = r.owner ∧
      seen.reads = log.filterMap (Entry.access? Event.read? s.table) ∧
      ∀ x ∈ log, ∃ g, x.calls.find? s.table.contains = some g := by
  obtain ⟨⟨⟩, s, hd, hs⟩ := exists_ok
    (x := Analysis.discover ⟨.empty, 2⟩
      (.start Model.calling [.ofCallable ⟨0⟩, .ofCallable ⟨1⟩] (.new ⟨false, false⟩ none [])))
    (fun _ s => s.table.records.head?.any fun r => match Analysis.replay ⟨.empty, 2⟩ r s with
      | .ok seen _ => seen.reads.map (·.within) == [⟨1⟩, ⟨1⟩, ⟨0⟩]
      | .error _ _ => false) (by decide +kernel)
  obtain ⟨r, hhead, hreplay⟩ := (Option.any_eq_true _ _).1 hs
  have hr := List.mem_of_head? hhead
  cases hseen : Analysis.replay ⟨.empty, 2⟩ r s with
  | error f s' =>
    rw [hseen] at hreplay
    cases hreplay
  | ok seen s' =>
    rw [hseen] at hreplay
    obtain ⟨call, hcallee, -, -, -, haccesses, hruns⟩ := calls_nested_and_accesses_attributed.2 _ r s s' seen hr hseen
    exact ⟨s, s', r, seen, hd, hr, hseen, beq_iff_eq.1 hreplay, call, _, hcallee, by rw [haccesses], hruns⟩

end Independence
