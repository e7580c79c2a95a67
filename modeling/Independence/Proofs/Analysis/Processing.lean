import Independence.Proofs.Program.Placeholder
import Independence.Proofs.Evaluation.Baseline
import Independence.Proofs.Evaluation.Announcement
import Independence.Proofs.Evaluation.Recording
import Independence.Proofs.Analysis.Ancestry
import Independence.Proofs.Analysis.Steps
import Independence.Analysis.Discovery
/-!
# Processing a request

A request is put aside or refused, or its candidate is captured. A capture that fails leaves pending what the candidate
registered until then. One that succeeds adds a record, and then the frame of the candidate is left, at once or after
the requests that it registered were processed under the commit of its effects. This is said once here, as a rule for
`process`, and what discovery keeps is derived from the rule.
-/

namespace Independence

variable {s t u : Session Model} {f : CallableId} {r : Record} {request : Request}

/-! ## How a capture can fail -/

/-- The failures with which a request is refused and nothing is evaluated. -/
def Failure.isRefusal : Failure → Bool
  | .invalidTarget _ _ | .unsupportedParameter _ _ _ | .doubleOptimization _ _ | .depthExceeded _ => true
  | .sideEffectEscalated _ _ | .evaluation _ | .abruptCompletion _ | .writeConflicts _ | .notUnwound _ => false

/-- The failures of evaluations. -/
def Failure.ofEvaluation : Failure → Bool
  | .sideEffectEscalated _ _ | .evaluation _ => true
  | .invalidTarget _ _ | .unsupportedParameter _ _ _ | .doubleOptimization _ _ | .depthExceeded _
  | .abruptCompletion _ | .writeConflicts _ | .notUnwound _ => false

/-- An evaluation of a candidate that failed, watched as captures are. -/
structure FailedEvaluation where
  name : String
  call : Call
  watch : Watch
  model : Model
  error : EvalError
  watched : Watch
  events : Array Event
  after : Model
  failed : Model.evaluate (captureObserver name).recording call ((watch, #[]), model) =
    .error error ((watched, events), after)

namespace FailedEvaluation

/-- What was registered until it failed, in order. -/
def registered (v : FailedEvaluation) : List Request := registrations v.events.toList

/-- The failure says that this evaluation failed: because the report of a side effect was answered with an abort, or
in another way. -/
def Blamed (v : FailedEvaluation) (x : Failure) : Prop :=
  x = .evaluation v.error ∨
    x = .sideEffectEscalated v.call.callee v.name ∧ v.error = .aborted ∧ v.watched.escalated = true

/-- The reporter is the one from the end of the evaluation, but that the failure may have been reported as well. -/
def ToldTo (v : FailedEvaluation) (reporter : Reporter) : Prop :=
  reporter = v.watched.reporter ∨ ∃ d, reporter = (v.watched.reporter.report d).2

/-- The evaluation is that of `f`, begun in `s` and over in `t`, where what it registered is pending besides. -/
structure Spans (v : FailedEvaluation) (f : CallableId) (s t : Session Model) : Prop where
  callee : v.call.callee = f
  watch : v.watch = ⟨s.reporter, s.traversal, false⟩
  model : v.model = s.evaluator
  after : t.evaluator = v.after
  pending : t.traversal.pending = s.traversal.pending ++ v.registered
  told : v.ToldTo t.reporter

end FailedEvaluation

/-- Of the evaluator only the counters moved, and of the traversal only what is pending changed. The table, the queue
and the requests processed so far are as before. -/
structure Session.Kept (s t : Session Model) : Prop where
  table : t.table = s.table
  visits : t.visits = s.visits
  queue : t.queue = s.queue
  frames : t.traversal.frames = s.traversal.frames
  commits : t.traversal.commits = s.traversal.commits
  evaluator : s.evaluator.Under [] t.evaluator

theorem Session.Kept.reported (h : s.Kept t) (reporter : Reporter) : s.Kept { t with reporter } :=
  ⟨h.table, h.visits, h.queue, h.frames, h.commits, h.evaluator⟩

theorem Session.Kept.of_placeholders {p : Placeholders} (h : Session.Kept { s with placeholders := p } t) : s.Kept t :=
  ⟨h.table, h.visits, h.queue, h.frames, h.commits, h.evaluator⟩

theorem Session.Kept.refl (s : Session Model) : s.Kept s := ⟨rfl, rfl, rfl, rfl, rfl, .refl _⟩

/-- The capture of a candidate was refused with the failure `x` before anything was evaluated. -/
structure Session.Refuses (s : Session Model) (x : Failure) (t : Session Model) : Prop where
  refusal : x.isRefusal = true
  shallow : ∀ limit, x ≠ .depthExceeded limit
  pending : t.traversal.pending = s.traversal.pending
  evaluator : t.evaluator = s.evaluator

/-- The capture of `f` failed: it was refused, or its evaluation failed. -/
structure Session.FailsAt (s : Session Model) (f : CallableId) (x : Failure) (t : Session Model) : Prop where
  kept : s.Kept t
  cause : s.Refuses x t ∨ x.ofEvaluation = true ∧ ∃ v : FailedEvaluation, v.Blamed x ∧ v.Spans f s t

/-- The record of `c` was added to the table, and what `c` registered was taken. -/
structure Session.Gains (s : Session Model) (c : Candidate) (r : Record) (t : Session Model) : Prop where
  table : s.table.insert? r = some t.table
  candidate : r.candidate = c
  parent : r.parent = s.traversal.parent?
  baseline : r.baseline = s.traversal.baseline
  simple : ∃ names, r.signature.simpleNames = .ok names
  traced : ∃ (call : Call) (es : List Event), call.callee = c.callable ∧ call.location = r.signature.location ∧
    s.evaluator.traceOf call = .ok r.effects (es, t.evaluator)
  visits : t.visits = s.visits
  queue : t.queue = s.queue
  traversal : t.traversal = { s.traversal with pending := [] }
  evaluator : s.evaluator.Under [] t.evaluator

namespace Analysis

variable {setup : Setup}

/-! ## Capturing -/

theorem evaluateWatched_ends (name : String) (call : Call) (s : Session Model) :
    (evaluateWatched name call).Ends s
      (fun outcome t => s.Kept t ∧ match outcome.1 with
        | .ok e => ∃ es, s.evaluator.traceOf call = .ok e (es, t.evaluator) ∧
          t.reporter = s.reporter.reportAll (disclosures name es)
        | .error e => ∃ v : FailedEvaluation, v.name = name ∧ v.call = call ∧ v.error = e ∧
          v.watched.escalated = outcome.2 ∧ v.watched.reporter = t.reporter ∧ v.Spans call.callee s t)
      fun _ _ => False := by
  have ht := traversal_captureObserver name call ⟨s.reporter, s.traversal, false⟩ s.evaluator
  have hu := (Model.Under.refl s.evaluator).evaluate (captureObserver name).recording call
    (⟨s.reporter, s.traversal, false⟩, #[])
  have he : Evaluator.evaluate (captureObserver name) call (⟨s.reporter, s.traversal, false⟩, s.evaluator) = _ :=
    Model.evaluate_recording (captureObserver name) call ⟨s.reporter, s.traversal, false⟩ #[] s.evaluator
  cases hx : Model.evaluate (captureObserver name).recording call
      ((⟨s.reporter, s.traversal, false⟩, #[]), s.evaluator) with
  | ok e p =>
    rw [hx] at ht hu he
    obtain ⟨es, hes, hafter⟩ := Model.traceOf_of_evaluate_ok he
    have htold : p.1.1.reporter = s.reporter.reportAll (disclosures name es) := by
      rw [hafter, reporter_captureObserver]
    have ht : p.1.1.traversal =
      { s.traversal with pending := s.traversal.pending ++ registrations p.1.2.toList } := ht
    simp only [Ends, evaluateWatched, he, mapOutcome]
    exact ⟨⟨rfl, rfl, rfl, by simp [ht], by simp [ht], hu⟩, es, hes, htold⟩
  | error e p =>
    rw [hx] at ht hu he
    have ht : p.1.1.traversal =
      { s.traversal with pending := s.traversal.pending ++ registrations p.1.2.toList } := ht
    simp only [Ends, evaluateWatched, he, mapOutcome]
    refine ⟨⟨rfl, rfl, rfl, by simp [ht], by simp [ht], hu⟩,
      ⟨name, call, ⟨s.reporter, s.traversal, false⟩, s.evaluator, e, p.1.1, p.1.2, p.2, hx⟩,
      rfl, rfl, rfl, rfl, rfl, ?_⟩
    exact ⟨rfl, rfl, rfl, rfl, by simp [ht, FailedEvaluation.registered], .inl rfl⟩

theorem effectsOf_ends (name : String) (signature : Signature) {call : Call} (hf : call.callee = f)
    (s : Session Model) : (effectsOf f name signature call).Ends s
      (fun e t => s.Kept t ∧ ∃ es, s.evaluator.traceOf call = .ok e (es, t.evaluator) ∧
        t.reporter = s.reporter.reportAll (disclosures name es)) (s.FailsAt f) := by
  refine Ends.bind (Ends.mono (evaluateWatched_ends name call s) (fun _ _ h => h) fun _ _ h => h.elim) ?_
  rintro ⟨outcome, escalated⟩ t ⟨hk, houtcome⟩
  cases outcome with
  | ok e => exact ⟨hk, houtcome⟩
  | error e =>
    obtain ⟨v, rfl, rfl, herror, hescalated, hreporter, hspans⟩ := houtcome
    rw [hf] at hspans
    have hfail : ∀ d, s.FailsAt f (.evaluation e) { t with reporter := (t.reporter.report d).2 } := fun d =>
      ⟨hk.reported _, .inr ⟨rfl, v, .inl (by rw [herror]),
        hspans.callee, hspans.watch, hspans.model, hspans.after, hspans.pending, .inr ⟨d, by rw [hreporter]⟩⟩⟩
    cases e with
    | aborted =>
      cases escalated with
      | true => exact ⟨hk, .inr ⟨rfl, v, .inr ⟨by rw [hf], herror, hescalated⟩, hspans⟩⟩
      | false => exact hfail _
    | _ => exact hfail _

/-- A capture records what its call did, under the innermost commit, and its callable can be called with
placeholders. -/
theorem capture_ends (setup : Setup) (c : Candidate) (s : Session Model) :
    (capture setup c).Ends s
      (fun r t => s.Kept t ∧ r.candidate = c ∧ r.parent = s.traversal.parent? ∧
        (∃ names, r.signature.simpleNames = .ok names) ∧ r.baseline = s.traversal.baseline ∧
        c.callable ∉ s.table.owners ∧ ∃ (call : Call) (es : List Event), call.callee = c.callable ∧
          call.location = r.signature.location ∧ s.evaluator.traceOf call = .ok r.effects (es, t.evaluator) ∧
          t.reporter = s.reporter.reportAll (disclosures (setup.names.resolve s.evaluator c.callable) es))
      (s.FailsAt c.callable) := by
  have hfail : ∀ {α : Type} (d : Diagnostic) (x : Failure) {Q : α → Session Model → Prop}, x.isRefusal = true →
      (∀ limit, x ≠ .depthExceeded limit) → (Analysis.fail d x).Ends s Q (s.FailsAt c.callable) :=
    fun d x _ hx hdepth => Ends.fail fun reporter =>
      ⟨(Session.Kept.refl s).reported reporter, .inl ⟨hx, hdepth, rfl, rfl⟩⟩
  refine Ends.get ?_
  simp only
  split
  · exact hfail _ _ rfl nofun
  · next hnew =>
    have hnew : c.callable ∉ s.table.owners := fun h => hnew (Table.contains_iff.2 h)
    split
    · exact hfail _ _ rfl nofun
    · next signature _ =>
      cases hsyn : s.placeholders.synthesize c.callable signature c.request.shape with
      | error p => exact hfail _ _ rfl nofun
      | ok result =>
        obtain ⟨call, placeholders⟩ := result
        obtain ⟨hsimple, hcallee, hlocation⟩ := Placeholders.of_synthesize hsyn
        refine Ends.set (Ends.bind ((effectsOf_ends _ _ hcallee _).mono (fun _ _ h => h) fun x t h =>
          ⟨h.kept.of_placeholders, h.cause.imp (fun h => ⟨h.refusal, h.shallow, h.pending, h.evaluator⟩)
            fun ⟨hx, v, hv, hs⟩ => ⟨hx, v, hv, hs.callee, hs.watch, hs.model, hs.after, hs.pending, hs.told⟩⟩) ?_)
        rintro e t ⟨hk, es, htrace, htold⟩
        exact Ends.pure
          ⟨hk.of_placeholders, rfl, rfl, hsimple, rfl, hnew, call, es, hcallee, hlocation, htrace, htold⟩

/-- A capture adds a record, which a record of the same owner could not prevent: there is none. It reports the side
effects of the evaluation and nothing else. -/
theorem captureNew_ends (setup : Setup) (c : Candidate) (s : Session Model) :
    (captureNew setup c).Ends s
      (fun result t => s.Gains c result.1 t ∧ ∃ (call : Call) (es : List Event),
        s.evaluator.traceOf call = .ok result.1.effects (es, t.evaluator) ∧
        t.reporter = s.reporter.reportAll (disclosures (setup.names.resolve s.evaluator c.callable) es))
      (s.FailsAt c.callable) := by
  refine Ends.bind (capture_ends setup c s) ?_
  rintro r t ⟨hk, hc, hparent, hsimple, hbaseline, hnew, call, es, hcallee, hlocation, htrace, htold⟩
  have howner : r.owner ∉ t.table.owners := by
    rw [hk.table, Record.owner, hc]
    exact hnew
  obtain ⟨table, hinsert⟩ := Table.exists_insert? howner
  refine Ends.get ?_
  simp only [hinsert]
  refine Ends.set (Ends.pure ⟨⟨hk.table ▸ hinsert, hc, hparent, hbaseline, hsimple, ⟨call, es, hcallee, hlocation, htrace⟩,
    hk.visits, hk.queue, ?_, hk.evaluator⟩, call, es, htrace, htold⟩)
  simp [Traversal.takePending, hk.frames, hk.commits]

/-! ## One request -/

theorem code_duplicateDiagnostic (name : String) (first : Visit) (location : Option Location) :
    (duplicateDiagnostic name first location).code = .doubleOptimization := by
  unfold duplicateDiagnostic
  split <;> rfl

end Analysis

section States
variable {m : Type} [Evaluator m]

/-- A request for `f` is accepted. -/
def Session.accept (s : Session m) (f : CallableId) (request : Request) : Session m :=
  { s with visits := ⟨f, request.location, s.traversal.candidates, .accepted⟩ :: s.visits }

def Session.enter (s : Session m) (f : CallableId) : Session m := { s with traversal := s.traversal.enter f }

def Session.leave (s : Session m) : Session m := { s with traversal := s.traversal.leave }

/-- The effects of the candidate in the innermost frame are committed. -/
def Session.commit (s : Session m) (e : Effects) : Session m :=
  { s with evaluator := (Evaluator.commit e s.evaluator).1, traversal := s.traversal.commit.2 }

/-- After what led to `t`, the effects committed in `s` are rolled back and the frame is left. -/
def Session.unwind (s : Session m) (e : Effects) (t : Session m) : Session m :=
  { t with evaluator := Evaluator.rollback t.evaluator (Evaluator.commit e s.evaluator).2
           traversal := t.traversal.leave }

end States

namespace Session

/-- When the frame of a candidate is left, what it left over is pending behind what was pending before. -/
theorem Kept.traversal_leave (h : ((s.accept f request).enter f).Kept t) :
    t.leave.traversal = { s.traversal with pending := s.traversal.pending ++ t.traversal.pending } := by
  have hframes : t.traversal.frames = ⟨f, none, s.traversal.pending⟩ :: s.traversal.frames := h.frames
  have hcommits : t.traversal.commits = s.traversal.commits := h.commits
  simp [leave, Traversal.leave, hframes, hcommits]

/-- A candidate that is captured leaves nothing over. -/
theorem Gains.traversal_leave {c : Candidate} (h : ((s.accept f request).enter f).Gains c r t) :
    t.leave.traversal = s.traversal := by
  simp [leave, Traversal.leave, h.traversal, enter, Traversal.enter, accept]

theorem Gains.traversal_commit {c : Candidate} (h : ((s.accept f request).enter f).Gains c r t) (e : Effects) :
    (t.commit e).traversal = ⟨⟨f, some ⟨s.traversal.commits + 1⟩, s.traversal.pending⟩ :: s.traversal.frames, [],
      s.traversal.commits + 1⟩ := by
  simp [commit, Traversal.commit, h.traversal, enter, Traversal.enter, accept]

theorem traversal_unwind {frame : Frame} {frames : List Frame} (h : u.traversal.frames = frame :: frames)
    (s : Session Model) (e : Effects) : (s.unwind e u).traversal =
      { u.traversal with frames := frames, pending := frame.saved ++ u.traversal.pending } := by
  simp [unwind, Traversal.leave, h]

end Session

/-- A request for `f` was accepted. -/
def Accepted (visits : List Visit) (f : CallableId) : Prop := ∃ v ∈ visits, v.callable = f ∧ v.outcome = .accepted

theorem Session.accepted?_some {first : Visit} (h : s.accepted? f = some first) : Accepted s.visits f := by
  have hf := List.find?_some h
  simp only [Bool.and_eq_true, beq_iff_eq] at hf
  exact ⟨first, List.mem_of_find?_eq_some h, hf⟩

theorem Session.accepted?_eq_none_iff {m : Type} {s : Session m} : s.accepted? f = none ↔ ¬ Accepted s.visits f := by
  simp [accepted?, Accepted]

/-- The request stands for `f`, and no request for `f` was accepted before. -/
structure Session.Admits (s : Session Model) (request : Request) (f : CallableId) : Prop where
  candidate : Evaluator.candidate? s.evaluator request.target = some f
  unseen : ¬ Accepted s.visits f

/-- What may be noted of a request that adds no record: it was made inside the candidates in progress, and the callable
that it stands for, if it does for any, was accepted before or is now. -/
structure Session.Noted (s : Session Model) (request : Request) (noted : List Visit) : Prop where
  enclosing : ∀ v ∈ noted, v.enclosing = s.traversal.candidates
  accepted : ∀ f, Evaluator.candidate? s.evaluator request.target = some f → Accepted (noted ++ s.visits) f

/-- What is noted of a request that is put aside: another one was accepted for its callable. -/
structure Session.Aside (s : Session Model) (request : Request) (noted : List Visit) : Prop
    extends s.Noted request noted where
  again : ∀ v ∈ noted, v.outcome ≠ .accepted

/-- A request is refused with the failure `x`: as one put aside is, or when it was accepted and no level is left. -/
structure Session.Refused (s : Session Model) (request : Request) (levels : Nat) (x : Failure) (noted : List Visit) :
    Prop extends s.Noted request noted where
  refusal : x.isRefusal = true
  reason : (∀ limit, x ≠ .depthExceeded limit) ∧ (∀ v ∈ noted, v.outcome ≠ .accepted) ∨
    levels = 0 ∧ ∃ f, s.Admits request f ∧ noted = [⟨f, request.location, s.traversal.candidates, .accepted⟩]

/-- One visit is noted, and the callable that the request stands for is accepted. -/
theorem Session.noted_one (hf : Evaluator.candidate? s.evaluator request.target = some f) {v : Visit}
    (hv : v.enclosing = s.traversal.candidates) (ha : Accepted (v :: s.visits) f) : s.Noted request [v] where
  enclosing v' hv' := List.mem_singleton.1 hv' ▸ hv
  accepted g hg := by
    rw [hf] at hg
    cases hg
    exact ha

namespace Analysis

variable {setup : Setup}

/-- What processing a request does: it is put aside or refused, or its candidate is entered and its capture fails, or a
record is added and what the candidate registered is processed under the commit of its effects. -/
theorem Ends.process {levels : Nat} {Q : Session Model → Prop} {E : Failure → Session Model → Prop}
    (aside : ∀ noted reporter, s.Aside request noted → Q { s with visits := noted ++ s.visits, reporter })
    (refused : ∀ x noted reporter, s.Refused request levels x noted →
      E x { s with visits := noted ++ s.visits, reporter })
    (failed : ∀ f x t, s.Admits request f → ((s.accept f request).enter f).FailsAt f x t → E x t.leave)
    (single : ∀ f r t, s.Admits request f → 0 < levels → ((s.accept f request).enter f).Gains ⟨f, request⟩ r t →
      Q t.leave)
    (nested : ∀ f r t rest (requests : List Request), s.Admits request f → levels = rest + 1 →
      ((s.accept f request).enter f).Gains ⟨f, request⟩ r t →
      Ends (requests.forM (process setup rest)) (t.commit r.effects) (fun _ u => Q (t.unwind r.effects u))
        fun x u => E x (t.unwind r.effects u)) :
    (process setup levels request).Ends s (fun _ => Q) E := by
  unfold Analysis.process
  refine Ends.get ?_
  split
  · next hnone =>
    exact Ends.fail fun reporter => refused _ [] reporter ⟨⟨by simp, by simp [hnone]⟩, rfl, .inl ⟨nofun, by simp⟩⟩
  · next f hf =>
    split
    · next first hfirst =>
      have hnoted : ∀ outcome, outcome ≠ .accepted →
          s.Aside request [⟨f, request.location, s.traversal.candidates, outcome⟩] := by
        intro outcome hne
        obtain ⟨v, hv, hvf⟩ := Session.accepted?_some hfirst
        exact ⟨Session.noted_one hf rfl ⟨v, List.mem_cons_of_mem _ hv, hvf⟩, by simpa using hne⟩
      refine Ends.get ?_
      split
      · exact Ends.modified (aside _ s.reporter (hnoted .repeated nofun))
      · refine Ends.bind (Q := fun _ t => ∃ reporter, t = { s with reporter })
          (Ends.report fun _ reporter => ⟨reporter, rfl⟩) ?_
        rintro decision _ ⟨reporter, rfl⟩
        refine Ends.bind (Q := fun _ t => ∃ v, s.Aside request [v] ∧ t = { s with visits := [v] ++ s.visits, reporter })
          (Ends.modified ⟨_, hnoted (.duplicate decision) nofun, rfl⟩) ?_
        rintro _ _ ⟨v, hv, rfl⟩
        cases decision with
        | abort => exact refused _ [v] reporter ⟨hv.toNoted, rfl, .inl ⟨nofun, hv.again⟩⟩
        | proceed => exact aside [v] reporter hv
    · next hnone =>
      have hadmits : s.Admits request f := ⟨hf, Session.accepted?_eq_none_iff.1 hnone⟩
      refine Ends.bind (Q := fun _ t => t = s.accept f request) (Ends.modified rfl) ?_
      rintro _ _ rfl
      cases levels with
      | zero =>
        have hnoted : s.Noted request [⟨f, request.location, s.traversal.candidates, .accepted⟩] :=
          Session.noted_one hf rfl ⟨_, List.mem_cons_self, rfl, rfl⟩
        exact Ends.fail fun reporter => refused _ _ reporter ⟨hnoted, rfl, .inr ⟨rfl, f, hadmits, rfl⟩⟩
      | succ levels =>
        refine Ends.inFrame (Ends.bind ((captureNew_ends setup ⟨f, request⟩ _).mono (fun _ _ h => h.1)
          (failed f · · hadmits)) ?_)
        rintro ⟨r, requests⟩ t ht
        simp only
        split
        · exact single f r t hadmits (Nat.succ_pos _) ht
        · refine Ends.bind (Q := fun _ u => u = { t with traversal := t.traversal.commit.2 }) rfl ?_
          rintro _ _ rfl
          exact Ends.committed (nested f r t levels requests hadmits rfl ht)

/-! ## The same as equations -/

/-- A request for a callable that was accepted is one for it again. -/
theorem process_of_accepted (setup : Setup) (levels : Nat) {first : Visit}
    (hf : Evaluator.candidate? s.evaluator request.target = some f) (hfirst : s.accepted? f = some first) :
    process setup levels request s = again setup f first request s := by
  unfold process
  simp only [Bind.bind, EStateM.bind, get_apply, hf, hfirst]

/-- The accepted request seen again is put aside without a report. -/
theorem again_of_repeated (setup : Setup) {first : Visit}
    (h : first.repeatedBy s.table request.location s.traversal.current? = true) :
    again setup f first request s =
      .ok () { s with visits := ⟨f, request.location, s.traversal.candidates, .repeated⟩ :: s.visits } := by
  unfold again
  simp only [Bind.bind, EStateM.bind, get_apply, h, if_true]
  rfl

/-- Any other request is reported, and put aside if the answer is to proceed. -/
theorem again_of_not_repeated (setup : Setup) {first : Visit}
    (h : ¬ first.repeatedBy s.table request.location s.traversal.current? = true) :
    let name := setup.names.resolve s.evaluator f
    let answer := s.reporter.report (duplicateDiagnostic name first request.location)
    let told := { s with
      visits := ⟨f, request.location, s.traversal.candidates, .duplicate answer.1⟩ :: s.visits, reporter := answer.2 }
    again setup f first request s =
      if answer.1 = .proceed then .ok () told else .error (.doubleOptimization f name) told := by
  intro name answer told
  unfold again
  simp only [Bind.bind, EStateM.bind, get_apply, if_neg h]
  have hreport : report (duplicateDiagnostic (setup.names.resolve s.evaluator f) first request.location) s =
      .ok answer.1 { s with reporter := answer.2 } := rfl
  rw [hreport]
  simp only [note, modify_apply]
  cases hanswer : answer.1 <;> simp only [told, hanswer] <;> rfl

/-- A request for a new callable is processed as the capture of its candidate and what that registers. -/
theorem process_of_admits (setup : Setup) (levels : Nat) (hf : s.Admits request f) :
    process setup (levels + 1) request s =
      match captureNew setup ⟨f, request⟩ ((s.accept f request).enter f) with
      | .error x t => .error x t.leave
      | .ok (r, requests) t =>
        if requests.isEmpty then .ok () t.leave
        else match requests.forM (process setup levels) (t.commit r.effects) with
          | .ok _ u => .ok () (t.unwind r.effects u)
          | .error x u => .error x (t.unwind r.effects u) := by
  have hnew : s.accepted? f = none := Session.accepted?_eq_none_iff.2 hf.unseen
  unfold process
  simp only [Bind.bind, EStateM.bind, get_apply, hf.candidate, hnew, note, modify_apply, inFrame]
  cases hc : captureNew setup ⟨f, request⟩ ((s.accept f request).enter f) with
  | error x t =>
    simp only [Session.accept, Session.enter] at hc
    rw [hc]
    rfl
  | ok result t =>
    simp only [Session.accept, Session.enter] at hc
    rw [hc]
    cases hempty : result.2.isEmpty with
    | true =>
      simp only [hempty]
      rfl
    | false =>
      simp only [hempty, Bool.false_eq_true, if_false, EStateM.bind, markCommitted, committed]
      cases hx : result.2.forM (process setup levels) (t.commit result.1.effects) <;>
        simp only [Session.commit] at hx <;> simp only [hx] <;> rfl

theorem process_of_captured {levels : Nat} {requests : List Request} (hf : s.Admits request f)
    (hc : captureNew setup ⟨f, request⟩ ((s.accept f request).enter f) = .ok (r, requests) t) (hne : requests ≠ []) :
    process setup (levels + 1) request s =
      match requests.forM (process setup levels) (t.commit r.effects) with
      | .ok _ u => .ok () (t.unwind r.effects u)
      | .error x u => .error x (t.unwind r.effects u) := by
  rw [process_of_admits setup levels hf, hc]
  exact if_neg (by simpa using hne)

/-! ## The queue -/

/-- What is kept while the queue gets shorter, processing all of it keeps. -/
theorem Ends.drain {I : List Request → Session Model → Prop} {E : Failure → Session Model → Prop}
    (hstep : ∀ request queue t, I (request :: queue) t →
      (Analysis.process setup (setup.maxNesting - t.traversal.depth) request).Ends { t with queue }
        (fun _ => I queue) E)
    {requests : List Request} (hs : I requests s) : (Analysis.drain setup requests).Ends s (fun _ => I []) E := by
  induction requests generalizing s with
  | nil => exact hs
  | cons request queue ih =>
    refine Ends.bind (Q := fun _ t => t = { s with queue }) (Ends.modified rfl) ?_
    rintro _ _ rfl
    exact Ends.get (Ends.bind (hstep request queue s hs) fun _ t ht => ih ht)

/-- Discovery ends as the processing of the queue does, or it fails then because frames are open. -/
theorem Ends.discover {Q : Unit → Session Model → Prop} {E : Failure → Session Model → Prop}
    (hdrain : (Analysis.drain setup s.queue).Ends s Q E)
    (hopen : ∀ t reporter, Q () t → E (.notUnwound t.traversal.depth) { t with reporter }) :
    (Analysis.discover setup).Ends s Q E := by
  refine Ends.get (Ends.bind hdrain fun _ t ht => Ends.get ?_)
  simp only
  split
  · exact ht
  · exact Ends.fail fun reporter => hopen t reporter ht

end Analysis

end Independence
