import Independence.Proofs.Analysis.Discovery
import Independence.Proofs.Analysis.Accesses
import Independence.Proofs.Analysis.Completions
/-!
# Replaying what was captured

After discovery nothing is left committed, and the table tells under which effects each record was captured. To
commit them again and evaluate the call again, at whatever later time, gives the effects of the record once more,
with new objects in the places of the ones created then.
-/

namespace Independence

variable {σ α β : Type} {m₀ m n n' : Model} {t : Table} {r : Record} {above : List Record} {s : Session Model}

open Evaluator (evaluateUnder)

/-! ## Replays and their events -/

theorem Replay.observer_permissive (t : Table) (f : CallableId) : (Replay.observer t f).Permissive := fun _ _ => rfl

theorem Analysis.withinAll_watchReplay (chain : List Effects) (t : Table) (f : CallableId) (call : Call) (m : Model) :
    Evaluator.withinAll chain (watchReplay t f call) m =
      let x := evaluateUnder chain .trace call [] m
      (Replay.noted t f x.1.2, x.2) := by
  have hmap := Evaluator.withinAll_map chain
    (fun s : Model => Evaluator.outcome (Evaluator.evaluate (Replay.observer t f) call (Replay.start, s)))
    (fun p => p.2.accesses) m
  refine Eq.trans (congrFun (congrArg (Evaluator.withinAll chain) (funext fun n => ?_)) m) (hmap.trans ?_)
  · simp only [watchReplay]
    cases Evaluator.evaluate (Replay.observer t f) call (Replay.start, n) <;> rfl
  · have h := Model.evaluateUnder_of_permissive (Replay.observer_permissive t f) chain call Replay.start m
    exact congrArg (fun x : (Except EvalError Effects × Replay) × Model => (x.1.2.accesses, x.2)) h

namespace Analysis

/-- Replays a record and keeps all of its events. -/
def replayEvents (setup : Setup) (r : Record) : Analysis Model (List Event) := do
  let s ← get
  let f := r.owner
  match s.placeholders.synthesize f r.signature r.candidate.request.shape with
  | .error p => throw (.unsupportedParameter f (setup.names.resolve s.evaluator f) p.index)
  | .ok (call, placeholders) =>
    let chain := (s.table.ancestors f).map (·.effects)
    let ((_, events), evaluator) := evaluateUnder chain .trace call [] s.evaluator
    set { s with placeholders, evaluator }
    return events

/-- A replay notes the accesses among its events. -/
theorem replay_eq (setup : Setup) (r : Record) (s : Session Model) :
    replay setup r s = mapOutcome (Replay.noted s.table r.owner) id (replayEvents setup r s) := by
  simp only [replay, replayEvents, Bind.bind, EStateM.bind, get_apply]
  cases s.placeholders.synthesize r.owner r.signature r.candidate.request.shape with
  | error p => rfl
  | ok result =>
    simp only [withinAll_watchReplay]
    rfl

theorem table_replayEvents (setup : Setup) (r : Record) (s : Session Model) :
    (finalState (replayEvents setup r s)).table = s.table := by
  simp only [replayEvents, Bind.bind, EStateM.bind, get_apply]
  cases s.placeholders.synthesize r.owner r.signature r.candidate.request.shape <;> rfl

theorem mapM_replay (setup : Setup) (rs : List Record) (s : Session Model) :
    rs.mapM (replay setup) s = mapOutcome (List.zipWith (fun r es => Replay.noted s.table r.owner es) rs) id
      (rs.mapM (replayEvents setup) s) := by
  induction rs generalizing s with
  | nil => rfl
  | cons r rs ih =>
    have ht := table_replayEvents setup r s
    rw [List.mapM_cons, List.mapM_cons]
    simp only [Bind.bind, EStateM.bind, replay_eq]
    cases hr : replayEvents setup r s with
    | error e t => rfl
    | ok es t =>
      rw [hr] at ht
      have ht : t.table = s.table := ht
      simp only [mapOutcome, id_eq, ih, ht]
      cases rs.mapM (replayEvents setup) t <;> rfl

end Analysis

/-! ## Reproduction -/

/-- The effects `e` are those of an earlier evaluation with the objects created now in place of the ones created
then. -/
structure Effects.Reproduces (e earlier : Effects) : Prop where
  result : e.result = earlier.result
  count : e.created.size = earlier.created.size
  effects : e = earlier.rename (ObjectSet.matching earlier.created e.created)

/-- Under the effects of the same ancestors a recorded call takes the recorded course at any later time, with the
numbers of new objects moved up. -/
theorem Captured.reproduces (hw : m₀.WellFormed) (h : Captured m₀ t r above n n') :
    ∃ es : List Event, ∀ m : Model, m₀.Under (Record.effectsAlong above) m → n'.nextObject ≤ m.nextObject → ∀ call : Call,
      call.callee = r.owner → call.location = r.signature.location → ∃ e m',
        m.traceOf call =
          .ok e (es.map (Event.rename (.shift n.nextObject (m.nextObject - n.nextObject))), m') ∧
        e.Reproduces r.effects := by
  obtain ⟨call', es, hcallee', hlocation', htrace⟩ := h.traced
  refine ⟨es, fun m hm hn call hcallee hlocation => ?_⟩
  have hfresh := h.fresh hw
  have hle := Nat.le_trans h.le_next hn
  have hhanded : ∀ a, m₀.HandedOut a → n.HandedOut a := fun a ha => Nat.lt_of_lt_of_le ha h.under.le_next
  -- The ancestors were captured before, so they write to no object that the capture created.
  have hbelow : ∀ e ∈ Record.effectsAlong above, e.Below n.nextObject := by
    intro e he
    obtain ⟨q, hq, rfl⟩ := List.mem_map.1 he
    exact h.below q (List.mem_reverse.1 hq)
  have hagain := h.under.traceOf_again hw hm hbelow (d := m.nextObject - n.nextObject) (by omega) call
  rw [n.traceOf_congr (hcallee.trans hcallee'.symm) (hlocation.trans hlocation'.symm), htrace] at hagain
  refine ⟨_, _, hagain, ?_, ?_, hfresh.rename_shift hhanded _⟩
  · exact Completion.rename_eq_self (hfresh.result.mono fun a ha => ObjectId.shift_of_lt (hhanded a ha))
  · exact ObjectSet.size_rename fun _ _ _ _ => ObjectId.compare_shift n.nextObject (m.nextObject - n.nextObject)

/-- The ancestors of a captured record are the records above it. -/
theorem Captured.effects_ancestors (h : Captured m₀ t r above n n') (hr : r ∈ t.records) :
    (t.ancestors r.owner).map Record.effects = Record.effectsAlong above := by
  have hchain : t.Chain (t.parent? r.owner) above := by
    rw [Table.parent?_owner hr]
    exact h.chain
  rw [hchain.ancestors, Record.effectsAlong]

/-! ## Verification -/

/-- The events are those of the record's call, evaluated under its ancestors at some time after `m`. -/
def EventsOf (m₀ : Model) (t : Table) (m : Model) (r : Record) (es : List Event) : Prop :=
  ∃ n call, m₀.Under ((t.ancestors r.owner).map Record.effects) n ∧ m.nextObject ≤ n.nextObject ∧
    call.callee = r.owner ∧ call.location = r.signature.location ∧ es = (finalState (n.traceOf call)).1

namespace Analysis

variable (setup : Setup)

/-- A record with simple parameters can be replayed, and only the counters tell the model from the one before. -/
theorem replayEvents_ends (hm : m₀.Under [] s.evaluator) (hr : ∃ names, r.signature.simpleNames = .ok names) :
    (replayEvents setup r).Ends s
      (fun es t => (t.table = s.table ∧ s.evaluator.Under [] t.evaluator) ∧ EventsOf m₀ s.table s.evaluator r es)
      fun _ _ => False := by
  obtain ⟨names, hnames⟩ := hr
  obtain ⟨call, q, hsyn, hcallee, hlocation⟩ :=
    Placeholders.synthesize_of_simple hnames s.placeholders r.owner r.candidate.request.shape
  refine Ends.get ?_
  simp only [hsyn]
  obtain ⟨k, hk, hnext, hout, -, -⟩ := hm.evaluateUnder ((s.table.ancestors r.owner).map Record.effects) call
  obtain ⟨-, -, -, -, hafter, -⟩ := (Model.Under.refl s.evaluator).evaluateUnder
    ((s.table.ancestors r.owner).map Record.effects) call
  refine Ends.set (Ends.pure ⟨⟨rfl, hafter⟩, k, call, hk, Nat.le_of_eq hnext.symm, hcallee, hlocation, ?_⟩)
  exact (congrArg Prod.snd hout).trans (Evaluator.events_outcome _)

/-- All records can be replayed, one after the other, and nothing of it lasts but the counters. -/
theorem mapM_replayEvents_ends (hm : m₀.Under [] s.evaluator)
    (hsimple : ∀ r ∈ s.table.records, ∃ names, r.signature.simpleNames = .ok names) :
    (s.table.records.mapM (replayEvents setup)).Ends s
      (fun ess t => (t.table = s.table ∧ s.evaluator.Under [] t.evaluator) ∧
        List.Forall₂ (EventsOf m₀ s.table s.evaluator) s.table.records ess)
      fun _ _ => False := by
  refine Ends.mapM (I := fun t => t.table = s.table ∧ s.evaluator.Under [] t.evaluator) ?_ ⟨rfl, .refl _⟩
  rintro r hr t ⟨htable, hlater⟩
  refine (replayEvents_ends setup (hm.later hlater) (hsimple r hr)).mono ?_ fun _ _ h => h
  rintro es u ⟨⟨htable', hlater'⟩, n, call, hn, hnext, hcall⟩
  exact ⟨⟨htable'.trans htable, hlater.later hlater'⟩, n, call, htable ▸ hn, Nat.le_trans hlater.le_next hnext, hcall⟩

/-- Verification fails only on records that are definitely abrupt, and otherwise matches the accesses of all replays. -/
theorem verify_ends (hm : m₀.Under [] s.evaluator)
    (hsimple : ∀ r ∈ s.table.records, ∃ names, r.signature.simpleNames = .ok names) :
    (verify setup).Ends s
      (fun conflicts t => t.table = s.table ∧ s.evaluator.Under [] t.evaluator ∧
        ∃ ess, List.Forall₂ (EventsOf m₀ s.table s.evaluator) s.table.records ess ∧
          conflicts = s.table.conflicts (setup.names.resolve t.evaluator)
            (List.zipWith (fun r es => Replay.noted s.table r.owner es) s.table.records ess))
      fun f _ => ∃ count, f = .abruptCompletion count := by
  refine Ends.bind (checkCompletions_ends setup s) ?_
  rintro _ _ ⟨reporter, rfl⟩
  have hreplays := mapM_replayEvents_ends setup (s := { s with reporter }) hm hsimple
  refine Ends.bind (Q := fun observed t => t.table = s.table ∧ s.evaluator.Under [] t.evaluator ∧
    ∃ ess, List.Forall₂ (EventsOf m₀ s.table s.evaluator) s.table.records ess ∧
      observed = List.zipWith (fun r es => Replay.noted s.table r.owner es) s.table.records ess) ?_ ?_
  · refine Ends.get ?_
    simp only [Ends, mapM_replay] at hreplays ⊢
    cases hx : s.table.records.mapM (replayEvents setup) { s with reporter } with
    | ok ess t =>
      rw [hx] at hreplays
      obtain ⟨⟨htable, hlater⟩, hess⟩ := hreplays
      exact ⟨htable, hlater, ess, hess, rfl⟩
    | error e t =>
      rw [hx] at hreplays
      exact hreplays.elim
  · rintro observed t ⟨htable, hlater, ess, hess, rfl⟩
    refine Ends.get (Ends.pure ⟨htable, hlater, ess, hess, ?_⟩)
    rw [htable]

end Analysis

/-! ## Replay reproduces capture -/

/-- After a discovery, each record can be replayed under its ancestors at any later time and with any placeholders:
its call returns, with the effects of the record up to the objects created. So verification fails only on records
that are definitely abrupt. -/
theorem replay_reproduces_capture {m₀ : Model} (hw : m₀.WellFormed) {setup : Setup} {roots : List Request}
    {reporter : Reporter} {s : Session Model}
    (hd : Analysis.discover setup (.start m₀ roots reporter) = .ok () s) :
    (∀ r ∈ s.table.records, ∀ p : Placeholders, ∃ call q,
      p.synthesize r.owner r.signature r.candidate.request.shape = .ok (call, q) ∧
      ∀ (m : Model), s.evaluator.Under [] m → ∀ {σ : Type} (o : Observer σ), o.Permissive → ∀ t : σ, ∃ e,
        (evaluateUnder ((s.table.ancestors r.owner).map Record.effects) o call t m).1.1 = .ok e ∧
          e.Reproduces r.effects) ∧
    ∀ f s', Analysis.verify setup s = .error f s' → ∃ count, f = .abruptCompletion count := by
  have hamid : Analysis.Amid m₀ [] [] s := (Analysis.discover_ends hw setup roots reporter).of_ok hd
  have hsimple := fun r hr => hamid.discovering.simple (r := r) hr
  refine ⟨fun r hr p => ?_, fun f s' hv => ?_⟩
  · obtain ⟨above, n, n', hc, hn⟩ := hamid.discovering.captured r hr
    obtain ⟨names, hnames⟩ := hsimple r hr
    obtain ⟨call, q, hsyn, hcallee, hlocation⟩ :=
      Placeholders.synthesize_of_simple hnames p r.owner r.candidate.request.shape
    refine ⟨call, q, hsyn, fun m hm σ o ho t => ?_⟩
    rw [hc.effects_ancestors hr, Model.evaluateUnder_of_permissive ho]
    obtain ⟨k, hk, hnext, hout, -, -⟩ :=
      (hamid.discovering.under.later hm).evaluateUnder (Record.effectsAlong above) call
    obtain ⟨es, hes⟩ := hc.reproduces hw
    obtain ⟨e, m', htrace, he⟩ := hes k hk (hnext ▸ Nat.le_trans hn hm.le_next) call hcallee hlocation
    refine ⟨e, ?_, he⟩
    simp only [hout, htrace]
    rfl
  · have hends := Analysis.verify_ends setup hamid.discovering.under hsimple
    simp only [Analysis.Ends, hv] at hends
    exact hends

/-- All three records of the sample can be replayed. -/
theorem replay_reproduces_sample : ∃ s : Session Model,
    Analysis.discover ⟨.empty, 2⟩ (.start .sample [.ofCallable ⟨0⟩, .ofCallable ⟨2⟩] (.new ⟨false, false⟩ none [])) =
      .ok () s ∧ s.table.size = 3 ∧
    ∀ r ∈ s.table.records, ∃ call q,
      Placeholders.none.synthesize r.owner r.signature r.candidate.request.shape = .ok (call, q) ∧
      ∃ e, (evaluateUnder ((s.table.ancestors r.owner).map Record.effects) .silent call () s.evaluator).1.1 = .ok e ∧
        e.Reproduces r.effects := by
  obtain ⟨⟨⟩, s, hd, hsize⟩ := exists_ok
    (x := Analysis.discover ⟨.empty, 2⟩
      (.start Model.sample [.ofCallable ⟨0⟩, .ofCallable ⟨2⟩] (.new ⟨false, false⟩ none [])))
    (fun _ s => s.table.size == 3) (by decide +kernel)
  refine ⟨s, hd, by simpa using hsize, fun r hr => ?_⟩
  obtain ⟨call, q, hsyn, hreplay⟩ := (replay_reproduces_capture Model.wellFormed_sample hd).1 r hr .none
  exact ⟨call, q, hsyn, hreplay s.evaluator (.refl _) .silent (fun _ _ => rfl) ()⟩

end Independence