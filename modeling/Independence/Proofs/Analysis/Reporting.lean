import Independence.Proofs.Evaluation.Obedience
import Independence.Proofs.Report.Reporter
import Independence.Proofs.Analysis.Replay
import Independence.Analysis.Checker
/-!
# Failures are reported

While nothing is answered with an abort the analysis goes on, and when something is, it fails. Whatever it fails with,
a diagnostic with the code of the failure was kept. Some exits report nothing themselves. Of these, the one after an
escalated side effect relies on the report that was answered with the abort, and the others are never taken.
-/

namespace Independence

variable {s t : Session Model} {setup : Setup}

/-- The session in which a run ends, whichever result it has. -/
def Checker.finished {m : Type} [Evaluator m] (c : Checker m) (roots : List Request) : Session m :=
  finalState (Analysis.analyse c.setup (c.session roots))

theorem Checker.run_leaves {m : Type} [Evaluator m] (c : Checker m) (roots : List Request) :
    (c.run roots).2 = c.after (c.finished roots) := by
  unfold run finished
  cases Analysis.analyse c.setup (c.session roots) <;> rfl

/-! ## Captures -/

/-- What a reporter keeps as long as it lets everything pass, the observer of a capture keeps until a side effect is
escalated, and then it was told of one. -/
theorem guards_captureObserver (name : String) {I : Reporter → Prop}
    (hI : ∀ r d, I r → (r.report d).1 = .proceed → I (r.report d).2) :
    (captureObserver name).Guards (fun w => I w.reporter ∧ w.escalated = false)
      fun w => w.reporter.Told .sideEffect ∧ w.escalated = true where
  plain e w he hw := by
    cases e with
    | sideEffect x => exact absurd rfl (he x)
    | _ => exact hw
  proceeds e w hw hd := by
    have hd : (w.reporter.report (e.diagnostic name)).1 = .proceed := hd
    refine ⟨hI _ _ hw.1 hd, ?_⟩
    simp [captureObserver, hw.2, hd]
  aborts e w hw hd := by
    have hd : (w.reporter.report (e.diagnostic name)).1 = .abort := hd
    refine ⟨Reporter.told_report w.reporter (e.diagnostic name), ?_⟩
    simp [captureObserver, hd]
  left f w hw := hw

namespace Analysis

theorem evaluateWatched_obeys (name : String) (call : Call) {I : Reporter → Prop}
    (hI : ∀ r d, I r → (r.report d).1 = .proceed → I (r.report d).2) (hs : I s.reporter) :
    (evaluateWatched name call).Ends s
      (fun outcome t => match outcome.1 with
        | .error .aborted => t.reporter.Told .sideEffect ∧ outcome.2 = true
        | .ok _ | .error _ => I t.reporter ∧ outcome.2 = false) fun _ _ => False := by
  have hobeys := Model.evaluate_obeys (guards_captureObserver name hI) call
    (s := ⟨s.reporter, s.traversal, false⟩) ⟨hs, rfl⟩ s.evaluator
  have he : Evaluator.evaluate (captureObserver name) call (⟨s.reporter, s.traversal, false⟩, s.evaluator) =
    Model.evaluate (captureObserver name) call (⟨s.reporter, s.traversal, false⟩, s.evaluator) := rfl
  simp only [Ends, evaluateWatched, he]
  cases hx : Model.evaluate (captureObserver name) call (⟨s.reporter, s.traversal, false⟩, s.evaluator) with
  | ok e p =>
    rw [hx] at hobeys
    exact hobeys
  | error e p =>
    rw [hx] at hobeys
    cases e <;> exact hobeys

/-- An evaluation that ended aborted had a side effect escalated. -/
theorem escalated_of_aborted (s t : Session Model) (name : String) (call : Call) (escalated : Bool)
    (h : evaluateWatched name call s = .ok (.error .aborted, escalated) t) : escalated = true :=
  ((evaluateWatched_obeys name call (I := fun _ => True) (fun _ _ _ _ => trivial) trivial).of_ok h).2

/-- The record of a capture can be entered into the table. -/
theorem capture_inserts (setup : Setup) (c : Candidate) (s : Session Model) :
    (capture setup c).Ends s (fun r t => (t.table.insert? r).isSome = true) fun _ _ => True := by
  refine (capture_ends setup c s).mono ?_ fun _ _ _ => trivial
  rintro r t ⟨hk, hc, -, -, -, hnew, -⟩
  have howner : r.owner ∉ t.table.owners := by
    rw [hk.table, Record.owner, hc]
    exact hnew
  obtain ⟨table, hinsert⟩ := Table.exists_insert? howner
  rw [hinsert]
  rfl

/-! ## Accounting for failures -/

/-- A step that begins while everything passed lets everything pass if it ends with a result, and fails only with what
was told. -/
def Accountable {α : Type} (x : Analysis Model α) (s : Session Model) : Prop :=
  s.reporter.Clear → x.Ends s (fun _ t => t.reporter.Clear) fun e t => t.reporter.Told e.code

theorem Ends.told {α : Type} {d : Diagnostic} {e : Failure} {Q : α → Session Model → Prop} (h : d.code = e.code) :
    Ends (Analysis.fail d e) s Q fun e t => t.reporter.Told e.code :=
  Ends.bind (Q := fun _ t => t.reporter.Told e.code) (Ends.reported (h ▸ Reporter.told_report s.reporter d))
    fun _ _ ht => Ends.throw ht

theorem effectsOf_accountable (f : CallableId) (name : String) (signature : Signature) (call : Call)
    (s : Session Model) : Accountable (effectsOf f name signature call) s := by
  intro hs
  refine Ends.bind_sure (evaluateWatched_obeys name call (fun _ _ h hd => h.report hd) hs) ?_
  rintro ⟨outcome, escalated⟩ t ht
  cases outcome with
  | ok e => exact Ends.pure ht.1
  | error e =>
    cases e with
    | aborted =>
      obtain ⟨htold, rfl⟩ := ht
      exact Ends.throw htold
    | _ => exact Ends.told rfl

theorem capture_accountable (setup : Setup) (c : Candidate) (s : Session Model) :
    Accountable (capture setup c) s := by
  intro hs
  refine Ends.get ?_
  simp only
  split
  · exact Ends.told rfl
  · split
    · exact Ends.told rfl
    · split
      · exact Ends.told rfl
      · refine Ends.set (Ends.bind (effectsOf_accountable _ _ _ _ _ hs) fun e t ht => Ends.pure ht)

theorem captureNew_accountable (setup : Setup) (c : Candidate) (s : Session Model) :
    Accountable (captureNew setup c) s := by
  intro hs
  refine Ends.bind (((capture_accountable setup c s hs).and (capture_inserts setup c s)).mono (fun _ _ h => h)
    fun _ _ h => h.1) ?_
  rintro r t ⟨ht, hinsert⟩
  obtain ⟨table, htable⟩ := Option.isSome_iff_exists.1 hinsert
  refine Ends.get ?_
  simp only [htable]
  exact Ends.set (Ends.pure ht)

/-! ## Discovery -/

theorem again_accountable (setup : Setup) (f : CallableId) (first : Visit) (request : Request) (s : Session Model) :
    Accountable (again setup f first request) s := by
  intro hs
  refine Ends.get ?_
  split
  · exact Ends.modified hs
  · refine Ends.bind (Q := fun decision t => decision = .proceed ∧ t.reporter.Clear ∨
      decision = .abort ∧ t.reporter.Told .doubleOptimization) (Ends.reported ?_) ?_
    · have htold := code_duplicateDiagnostic (setup.names.resolve s.evaluator f) first request.location ▸
        Reporter.told_report s.reporter _
      cases hd : (s.reporter.report (duplicateDiagnostic (setup.names.resolve s.evaluator f) first request.location)).1
        with
      | proceed => exact .inl ⟨rfl, hs.report hd⟩
      | abort => exact .inr ⟨rfl, htold⟩
    · rintro decision t ht
      refine Ends.bind (Q := fun _ u => u.reporter = t.reporter) (Ends.modified rfl) fun _ u hu => ?_
      obtain ⟨rfl, ht⟩ | ⟨rfl, ht⟩ := ht
      · exact Ends.pure (hu ▸ ht)
      · exact Ends.throw (hu ▸ ht)

theorem process_accountable (setup : Setup) (levels : Nat) (request : Request) (s : Session Model) :
    Accountable (process setup levels request) s := by
  induction levels using Nat.strongRecOn generalizing request s with
  | ind levels ih =>
    intro hs
    unfold process
    refine Ends.get ?_
    split
    · exact Ends.told rfl
    · next f _ =>
      split
      · exact again_accountable setup f _ request s hs
      · refine Ends.bind (Q := fun _ t => t.reporter.Clear) (Ends.modified hs) fun _ t ht => ?_
        cases levels with
        | zero => exact Ends.told rfl
        | succ levels =>
          refine Ends.inFrame (Ends.bind (captureNew_accountable setup ⟨f, request⟩ _ ht) ?_)
          rintro ⟨r, requests⟩ u hu
          simp only
          split
          · exact Ends.pure hu
          · refine Ends.bind (Q := fun _ v => v.reporter.Clear) hu fun _ v hv => Ends.committed ?_
            exact Ends.forM (fun request _ w hw => ih levels (Nat.lt_succ_self _) request w hw) hv

theorem discover_accountable (setup : Setup) (s : Session Model) : Accountable (discover setup) s := by
  intro hs
  have hdrain : (drain setup s.queue).Ends s (fun _ t => t.reporter.Clear) fun e t => t.reporter.Told e.code :=
    Ends.drain (I := fun _ t => t.reporter.Clear)
      (fun request _ t ht => process_accountable setup _ request _ ht) hs
  refine Ends.get (Ends.bind hdrain fun _ t ht => Ends.get ?_)
  simp only
  split
  · exact Ends.pure ht
  · exact Ends.told rfl

/-- The parameters of all records are simple. -/
def Simple (t : Table) : Prop := ∀ r ∈ t.records, ∃ names, r.signature.simpleNames = .ok names

/-- What is captured can be called with placeholders. -/
theorem process_simple (setup : Setup) (levels : Nat) (request : Request) (hs : Simple s.table) :
    (process setup levels request).Ends s (fun _ t => Simple t.table) fun _ _ => True := by
  induction levels using Nat.strongRecOn generalizing request s with
  | ind levels ih =>
    have hgains : ∀ {c : Candidate} {r : Record} {t : Session Model} {f : CallableId},
        ((s.accept f request).enter f).Gains c r t → Simple t.table := by
      intro c r t f h q hq
      rcases (Table.mem_records_insert? h.table).1 hq with hq | rfl
      · exact hs q hq
      · exact h.simple
    refine Ends.process (fun _ _ _ => hs) (fun _ _ _ _ => trivial) (fun _ _ _ _ _ => trivial)
      (fun f r t _ _ h => show Simple t.table from hgains h) ?_
    rintro f r t rest requests - rfl h
    have hr : Simple (t.commit r.effects).table := hgains (t := t) h
    exact Ends.forM (I := fun u => Simple u.table) (fun request _ u hu => ih rest (Nat.lt_succ_self _) request hu) hr

theorem discover_simple (setup : Setup) (hs : Simple s.table) :
    (discover setup).Ends s (fun _ t => Simple t.table) fun _ _ => True :=
  Ends.discover (Ends.drain (I := fun _ t => Simple t.table)
    (fun request _ _ ht => process_simple setup _ request ht) hs) fun _ _ _ => trivial

/-! ## Verification -/

/-- A replay of a record with simple parameters reports nothing, and it does not fail. -/
theorem replay_reports_nothing (setup : Setup) {r : Record} (hr : ∃ names, r.signature.simpleNames = .ok names)
    (s : Session Model) :
    (replay setup r).Ends s (fun _ t => t.reporter = s.reporter ∧ t.table = s.table) fun _ _ => False := by
  obtain ⟨names, hnames⟩ := hr
  obtain ⟨call, q, hsyn, -⟩ :=
    Placeholders.synthesize_of_simple hnames s.placeholders r.owner r.candidate.request.shape
  refine Ends.get ?_
  simp only [hsyn]
  exact Ends.set (Ends.pure ⟨rfl, rfl⟩)

theorem replayAll_reports_nothing (setup : Setup) (hs : Simple s.table) :
    (replayAll setup).Ends s (fun _ t => t.reporter = s.reporter ∧ t.table = s.table) fun _ _ => False := by
  refine Ends.get ((Ends.mapM (I := fun t => t.reporter = s.reporter ∧ t.table = s.table) (R := fun _ _ => True)
    (fun r hr t ht => ?_) ⟨rfl, rfl⟩).mono (fun _ _ h => h.1) fun _ _ h => h)
  refine (replay_reports_nothing setup (hs r hr) t).mono (fun _ u hu => ?_) fun _ _ h => h
  exact ⟨⟨hu.1.trans ht.1, hu.2.trans ht.2⟩, trivial⟩

/-- Verification finds conflicts and reports nothing, or it fails on records that are definitely abrupt. -/
theorem verify_tells (setup : Setup) (hs : Simple s.table) :
    (verify setup).Ends s
      (fun _ t => t.reporter = s.reporter ∧ t.table = s.table ∧
        ∀ r ∈ s.table.records, r.effects.result.isDefinitelyAbrupt = false)
      fun e t => t.reporter.Told .abruptCompletion ∧ ∃ count, e = .abruptCompletion count := by
  refine Ends.bind (checkCompletions_tells setup s) ?_
  rintro _ t ⟨ht, hcompletes⟩
  rw [ht]
  refine Ends.bind_sure (replayAll_reports_nothing setup hs) fun _ u hu => ?_
  exact Ends.get (Ends.pure ⟨hu.1, hu.2, hcompletes⟩)

theorem reportConflicts_tells (conflicts : List Conflict) (s : Session Model) :
    (reportConflicts conflicts).Ends s (fun decision t =>
      decision = .proceed ∧ t = s ∨ decision = .abort ∧ t.reporter.Told .writeConflict) fun _ _ => False := by
  cases conflicts with
  | nil => exact .inl ⟨rfl, rfl⟩
  | cons c cs =>
    have hreport : ∀ (c : Conflict) (t : Session Model), Ends (do let _ ← report c.diagnostic) t
        (fun _ u => u.reporter.Told .writeConflict) fun _ _ => False := fun c t =>
      Ends.bind (Q := fun _ u => u.reporter.Told .writeConflict) (Ends.reported (Reporter.told_report t.reporter _))
        fun _ _ hu => Ends.pure hu
    refine Ends.bind (Q := fun _ t => t.reporter.Told .writeConflict) ?_ fun _ t ht => Ends.pure (.inr ⟨rfl, ht⟩)
    refine Ends.bind (hreport c s) fun _ t ht => ?_
    exact Ends.forM (I := fun u => u.reporter.Told .writeConflict) (fun d _ u _ => hreport d u) ht

theorem analyse_accountable (setup : Setup) (hs : Simple s.table) : Accountable (analyse setup) s := by
  intro hclear
  refine Ends.bind (((discover_accountable setup s hclear).and (discover_simple setup hs)).mono (fun _ _ h => h)
    fun _ _ h => h.1) ?_
  rintro _ t ⟨ht, hsimple⟩
  refine Ends.bind ((verify_tells setup hsimple).mono (fun _ _ h => h) ?_) ?_
  · rintro _ u ⟨hu, count, rfl⟩
    exact hu
  · rintro conflicts u ⟨hu, -, -⟩
    refine Ends.bind_sure (reportConflicts_tells conflicts u) ?_
    rintro decision v (⟨rfl, rfl⟩ | ⟨rfl, hv⟩)
    · exact Ends.pure (hu ▸ ht)
    · exact Ends.throw hv

end Analysis

namespace Checker

/-- Every abort is obeyed and every failure is told: if a report in a run is answered with an abort the run fails, a run
that succeeds reported nothing fatal, and the diagnostics of one that fails contain one with the code of its failure.
The exits without a report are not taken: what was captured can be entered into the table, only evaluations with an
escalated side effect end aborted, and what was discovered can be called with placeholders again. -/
theorem failures_are_told (c : Checker Model) (roots : List Request) :
    ((∃ p ∈ (c.finished roots).reporter.reports, p.decision = .abort) → ∃ f, (c.run roots).1 = .error f) ∧
    (∀ v, (c.run roots).1 = .ok v →
      ∀ p ∈ (c.finished roots).reporter.reports, p.diagnostic.severity ≠ .fatal) ∧
    (∀ f, (c.run roots).1 = .error f → ∃ d ∈ f.diagnostics, d.code = f.failure.code) ∧
    (∀ (s t : Session Model) (candidate : Candidate) (r : Record),
      Analysis.capture c.setup candidate s = .ok r t → (t.table.insert? r).isSome = true) ∧
    (∀ (s t : Session Model) (name : String) (call : Call) (escalated : Bool),
      Analysis.evaluateWatched name call s = .ok (.error .aborted, escalated) t → escalated = true) ∧
    ∀ s, Analysis.discover c.setup (c.session roots) = .ok () s → ∀ r ∈ s.table.records, ∀ p : Placeholders,
      ∃ call q, p.synthesize r.owner r.signature r.candidate.request.shape = .ok (call, q) := by
  have hempty : Analysis.Simple (c.session roots).table := fun _ h => by cases h
  have hends := Analysis.analyse_accountable c.setup hempty
    (Reporter.clear_new c.settings.policy c.handler (c.consulted.map Prod.fst))
  have hsimple : ∀ s, Analysis.discover c.setup (c.session roots) = .ok () s → ∀ r ∈ s.table.records,
      ∀ p : Placeholders, ∃ call q, p.synthesize r.owner r.signature r.candidate.request.shape = .ok (call, q) := by
    intro s hd r hr p
    obtain ⟨names, hnames⟩ := (Analysis.discover_simple c.setup hempty).of_ok hd r hr
    obtain ⟨call, q, hsyn, -⟩ := Placeholders.synthesize_of_simple hnames p r.owner r.candidate.request.shape
    exact ⟨call, q, hsyn⟩
  have hcapture := fun (s t : Session Model) (candidate : Candidate) (r : Record) =>
    (Analysis.capture_inserts c.setup candidate s).of_ok (a := r) (t := t)
  unfold Analysis.Ends at hends
  unfold finished run
  cases hx : Analysis.analyse c.setup (c.session roots) with
  | ok u s =>
    rw [hx] at hends
    refine ⟨?_, fun v _ p hp => (hends p hp).2, fun f hf => (by cases hf), hcapture, Analysis.escalated_of_aborted, hsimple⟩
    rintro ⟨p, hp, hd⟩
    rw [(hends p hp).1] at hd
    cases hd
  | error e s =>
    rw [hx] at hends
    refine ⟨fun _ => ⟨_, rfl⟩, fun v hv => (by cases hv), ?_, hcapture, Analysis.escalated_of_aborted, hsimple⟩
    rintro f hf
    cases hf
    exact hends

/-- The sample where warnings abort. -/
def strictSample : Checker Model := ⟨Model.sample, { warningsAsErrors := true }, .empty, none, []⟩

/-- The write of the first function is escalated there, so the run fails, and it tells why. -/
theorem failures_are_told_sample : (∃ f, (strictSample.run [.ofCallable ⟨0⟩]).1 = .error f) ∧
    ∀ f, (strictSample.run [.ofCallable ⟨0⟩]).1 = .error f → ∃ d ∈ f.diagnostics, d.code = f.failure.code := by
  have habort : (strictSample.finished [.ofCallable ⟨0⟩]).reporter.reports.any (·.decision == .abort) = true := by
    decide +kernel
  obtain ⟨p, hp, hd⟩ := List.any_eq_true.1 habort
  have htold := failures_are_told strictSample [.ofCallable ⟨0⟩]
  exact ⟨htold.1 ⟨p, hp, by simpa using hd⟩, htold.2.2.1⟩

end Checker

end Independence
