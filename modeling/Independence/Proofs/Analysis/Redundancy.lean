import Independence.Proofs.Analysis.Outcomes
import Independence.Proofs.Analysis.Telling
import Independence.Proofs.Analysis.Extension
/-!
# Redundant roots

If errors are let pass and nobody is asked, a root for a callable that was accepted before is put aside when its turn
comes. What it leaves is a visit, which no later look-up finds, and perhaps a report of a duplicate. So an analysis
without it takes the same course and finds the same conflicts, and whatever else is reported stays.
-/

namespace Independence

variable {r r' : Reporter} {d : Diagnostic} {code : Code} {s s' t t' u : Session Model} {setup : Setup} {request : Request}
  {queue roots : List Request} {f : CallableId} {i : Nat}

/-! ## Reports but for one code -/

/-- The diagnostics but for those with the code. -/
def Diagnostic.besides (code : Code) (ds : List Diagnostic) : List Diagnostic := ds.filter (·.code != code)

namespace Reporter

theorem besides_report_of_eq (h : d.code = code) :
    Diagnostic.besides code (r.report d).2.diagnostics = Diagnostic.besides code r.diagnostics := by
  simp only [report, keep]
  split
  · rfl
  · simp [Diagnostic.besides, List.filter_append, h]

/-- Whether a diagnostic is kept again does not depend on those with another code. -/
theorem besides_report_of_ne (h : d.code ≠ code) :
    Diagnostic.besides code (r.report d).2.diagnostics =
      if (Diagnostic.besides code r.diagnostics).any (·.sameReport d) then Diagnostic.besides code r.diagnostics
      else Diagnostic.besides code r.diagnostics ++ [d] := by
  have hany : (Diagnostic.besides code r.diagnostics).any (·.sameReport d) = r.diagnostics.any (·.sameReport d) := by
    rw [Diagnostic.besides, List.any_filter]
    refine congrArg (List.any r.diagnostics) (funext fun e => ?_)
    by_cases hsame : e.sameReport d = true
    · simp [hsame, Diagnostic.code_of_sameReport hsame, h]
    · simp [hsame]
  rw [hany]
  simp only [report, keep]
  split
  · rfl
  · simp [Diagnostic.besides, List.filter_append, h]

/-- The two have one policy and no handler, and they keep the same but for diagnostics with the code. -/
structure SameBut (code : Code) (r r' : Reporter) : Prop where
  policy : r'.policy = r.policy
  unhandled : r.handler = none ∧ r'.handler = none
  kept : Diagnostic.besides code r'.diagnostics = Diagnostic.besides code r.diagnostics

theorem SameBut.report (h : SameBut code r r') (d : Diagnostic) :
    (r'.report d).1 = (r.report d).1 ∧ SameBut code (r.report d).2 (r'.report d).2 := by
  refine ⟨?_, ?_, ?_, ?_⟩
  · rw [answer_of_unhandled h.unhandled.1, answer_of_unhandled h.unhandled.2, h.policy]
  · rw [policy_report, policy_report, h.policy]
  · rw [handler_report, handler_report]
    exact h.unhandled
  · by_cases hcode : d.code = code
    · rw [besides_report_of_eq hcode, besides_report_of_eq hcode, h.kept]
    · rw [besides_report_of_ne hcode, besides_report_of_ne hcode, h.kept]

/-- The first one may be told of more with the code. -/
theorem SameBut.report_left (h : SameBut code r r') (hd : d.code = code) : SameBut code (r.report d).2 r' where
  policy := by rw [policy_report, h.policy]
  unhandled := by
    rw [handler_report]
    exact h.unhandled
  kept := by rw [besides_report_of_eq hd, h.kept]

end Reporter

/-! ## Visits that no look-up finds -/

/-- The concord of two analyses without a handler that let errors pass. The first one was asked more often for what was
accepted. -/
def Concord.repeating (setup : Setup) : Concord where
  setup := setup
  setup' := setup
  gives := False
  visits vs vs' := ∀ f, vs'.find? (fun v => v.callable == f && v.outcome == .accepted) =
    vs.find? fun v => v.callable == f && v.outcome == .accepted
  reporters r r' := r.SameBut .doubleOptimization r' ∧ r.policy.recoverErrors = true
  limits := .inl rfl
  noted v h f := by rw [List.find?_cons, List.find?_cons, h f]
  found f h := h f
  reported := by
    rintro r r' d d' ⟨hsame, hrecovers⟩ hd
    obtain rfl := hd.equal rfl
    obtain ⟨hanswer, hnext⟩ := hsame.report d'
    exact ⟨.inl hanswer, hnext, by rw [Reporter.policy_report, hrecovers]⟩

open Analysis (process drain again duplicateDiagnostic)

theorem Analysis.severity_duplicateDiagnostic (name : String) (first : Visit) (location : Option Location) :
    (duplicateDiagnostic name first location).severity = .recoverable := by
  unfold duplicateDiagnostic
  split <;> rfl

/-- What was accepted is put aside when it is requested again, and whoever was not asked is none the wiser. -/
theorem Concord.repeating_aside (hs : (repeating setup).Matches s s') (levels : Nat)
    (hf : Evaluator.candidate? s.evaluator request.target = some f) (ha : Accepted s.visits f) :
    ∃ t, process setup levels request s = .ok () t ∧ (repeating setup).Matches t s' := by
  obtain ⟨hsame, hrecovers⟩ := hs.reporters
  obtain ⟨first, hfirst⟩ : ∃ first, s.accepted? f = some first := by
    rw [← Option.ne_none_iff_exists']
    exact fun hnone => Session.accepted?_eq_none_iff.1 hnone ha
  -- The visit is not one of an accepted request, so it is none that a look-up finds.
  have hnoted : ∀ outcome, outcome ≠ .accepted → (repeating setup).visits
      (⟨f, request.location, s.traversal.candidates, outcome⟩ :: s.visits) s'.visits := by
    intro outcome hne g
    rw [List.find?_cons_of_neg (by simp [hne]), hs.visits g]
  rw [Analysis.process_of_accepted setup levels hf hfirst]
  by_cases hrepeated : first.repeatedBy s.table request.location s.traversal.current? = true
  · exact ⟨_, Analysis.again_of_repeated setup hrepeated,
      hs.evaluator, hs.traversal, hs.placeholders, hs.table, hnoted _ (by decide), hs.reporters⟩
  · have hcode := Analysis.code_duplicateDiagnostic (setup.names.resolve s.evaluator f) first request.location
    have hproceed : (s.reporter.report (duplicateDiagnostic (setup.names.resolve s.evaluator f) first
        request.location)).1 = .proceed := by
      rw [Reporter.answer_of_unhandled hsame.unhandled.1, Analysis.severity_duplicateDiagnostic, Policy.decide,
        if_pos hrecovers]
    refine ⟨_, (Analysis.again_of_not_repeated setup hrepeated).trans (if_pos hproceed),
      hs.evaluator, hs.traversal, hs.placeholders, hs.table, hnoted _ (by simp), hsame.report_left hcode, ?_⟩
    rw [Reporter.policy_report, hrecovers]

/-! ## Requests that are left out -/

/-- When the queue is processed from here, the request at this position has its turn, and it is then for a callable that
was accepted before. -/
def Analysis.Redundant (setup : Setup) (queue : List Request) (s : Session Model) (i : Nat) : Prop :=
  ∃ request f t, queue[i]? = some request ∧ drain setup (queue.take i) s = .ok () t ∧
    Evaluator.candidate? t.evaluator request.target = some f ∧ Accepted t.visits f

/-- The requests but those at the positions that are dropped. -/
def Analysis.remaining (dropped : Nat → Bool) : List Request → List Request
  | [] => []
  | request :: queue =>
    let rest := remaining (fun i => dropped (i + 1)) queue
    if dropped 0 then rest else request :: rest

/-- Whether a request for the callable would be one again. -/
def Session.seen (f : CallableId) (s : Session Model) : Bool :=
  Evaluator.candidate? s.evaluator (Request.ofCallable f).target == some f && (s.accepted? f).isSome

namespace Analysis

theorem Redundant.of_seen (hi : queue[i]? = some (.ofCallable f)) (hx : drain setup (queue.take i) s = .ok () t)
    (hseen : t.seen f = true) : Redundant setup queue s i := by
  simp only [Session.seen, Bool.and_eq_true, beq_iff_eq] at hseen
  obtain ⟨first, hfirst⟩ := Option.isSome_iff_exists.1 hseen.2
  exact ⟨_, f, t, hi, hx, hseen.1, Session.accepted?_some hfirst⟩

theorem Redundant.congr (h : Redundant setup queue s i) (hs : (Concord.repeating setup).Matches s s') :
    Redundant setup queue s' i := by
  obtain ⟨request, f, t, hi, hx, hf, ha⟩ := h
  have htracks := Concord.drain_tracks (queue.take i) hs
  obtain ⟨_, t', hx', -, ht⟩ := htracks.exists_ok hx
  refine ⟨request, f, t', hi, hx', ?_, ?_⟩
  · rw [ht.evaluator, hf]
  · rw [ht.accepted_iff]
    exact ha

/-- What is redundant in the queue is redundant in what is left of it after the first request. -/
theorem Redundant.tail (h : Redundant setup (request :: queue) s (i + 1)) (hs : (Concord.repeating setup).Matches s s) :
    ∃ t, process setup (setup.maxNesting - s.traversal.depth) request { s with queue } = .ok () t ∧
      Redundant setup queue t i := by
  obtain ⟨last, f, u, hi, hx, hf, ha⟩ := h
  rw [List.take_succ_cons, drain_cons] at hx
  have htracks := Concord.process_tracks (C := Concord.repeating setup)
    (.refl (setup.maxNesting - s.traversal.depth)) request (hs.aside (queue.take i) queue)
  cases hfirst : process setup (setup.maxNesting - s.traversal.depth) request { s with queue := queue.take i } with
  | ok _ t =>
    rw [hfirst] at hx
    obtain ⟨_, t', hfirst', -, ht⟩ := htracks.exists_ok hfirst
    exact ⟨t', hfirst', Redundant.congr ⟨last, f, u, hi, hx, hf, ha⟩ ht⟩
  | error x t =>
    rw [hfirst] at hx
    cases hx

end Analysis

open Analysis (Redundant remaining)

/-- The queue is processed alike without requests that are redundant. -/
theorem Concord.drain_remaining {dropped : Nat → Bool} (hs : (repeating setup).Matches s s')
    (hd : ∀ i, dropped i = true → Redundant setup queue s i) :
    (repeating setup).Tracks (drain setup queue) (drain setup (remaining dropped queue)) (fun _ _ => True) s s' := by
  induction queue generalizing dropped s s' with
  | nil => exact Tracks.pure trivial hs
  | cons request queue ih =>
    have hself : (repeating setup).Matches s s :=
      ⟨rfl, rfl, rfl, rfl, fun _ => rfl,
        ⟨rfl, ⟨hs.reporters.1.unhandled.1, hs.reporters.1.unhandled.1⟩, rfl⟩, hs.reporters.2⟩
    -- What is dropped behind the first request is redundant after it.
    have htail : ∀ {t}, process setup (setup.maxNesting - s.traversal.depth) request { s with queue } = .ok () t →
        ∀ i, dropped (i + 1) = true → Redundant setup queue t i := by
      intro t hx i hi
      obtain ⟨u, hu, hredundant⟩ := (hd (i + 1) hi).tail hself
      cases hx.symm.trans hu
      exact hredundant
    by_cases hfirst : dropped 0 = true
    · obtain ⟨_, f, _, hrequest, hnone, hf, ha⟩ := hd 0 hfirst
      cases hrequest
      cases hnone
      obtain ⟨t, hx, ht⟩ := repeating_aside (hs.aside queue s'.queue)
        (setup.maxNesting - s.traversal.depth) hf ha
      have hrest := ih ht (htail hx)
      unfold Tracks at hrest ⊢
      rw [Analysis.drain_cons, hx, remaining, if_pos hfirst]
      exact hrest
    · have hlevels : (repeating setup).Levels (setup.maxNesting - s.traversal.depth)
          (setup.maxNesting - s'.traversal.depth) := .inl (by rw [hs.traversal])
      have hstep := process_tracks hlevels request (hs.aside queue (remaining (fun i => dropped (i + 1)) queue))
      rw [remaining, if_neg hfirst]
      change (repeating setup).Tracks
        (process setup (setup.maxNesting - s.traversal.depth) request >>= fun _ => drain setup queue)
        (process setup (setup.maxNesting - s'.traversal.depth) request >>= fun _ => drain setup (remaining _ queue)) _
        { s with queue } { s' with queue := remaining _ queue }
      exact Tracks.bind_of_ok hstep fun _ _ t t' hx _ _ ht => ih ht (htail hx)

/-! ## Runs -/

namespace Checker

variable {c : Checker Model}

/-- The run succeeds without it and nothing is different, or it fails with the same failure, and what is reported is the
same but for diagnostics with the code. -/
def SameBut (code : Code) : Except FailedRun Verified → Except FailedRun Verified → Prop
  | .ok v, .ok v' => v' = v
  | .error f, .error f' => f'.failure = f.failure ∧
      Diagnostic.besides code f'.diagnostics = Diagnostic.besides code f.diagnostics
  | .ok _, .error _ => False
  | .error _, .ok _ => False

/-- Duplicates are no warnings. -/
theorem warnings_of_run_ok {v : Verified} (h : (c.run roots).1 = .ok v) : v.warnings =
    (Diagnostic.besides .doubleOptimization (c.finished roots).reporter.diagnostics).filter (·.severity == .warning) := by
  obtain ⟨s, hs, hv, -⟩ := exists_discover_of_run h
  obtain ⟨ds, hds, htold⟩ := (Analysis.discover_tells c.setup (c.session roots)).of_ok hs
  have hcode : ∀ d ∈ v.warnings, (d.code != .doubleOptimization) = true := by
    rw [hv]
    intro d hd
    obtain ⟨hd, hwarning⟩ := List.mem_filter.1 hd
    rw [htold] at hd
    have hof : d.OfDiscovery := hds d ((Reporter.mem_of_mem_reportAll hd).resolve_left List.not_mem_nil)
    rw [hof.warns.1 (eq_of_beq hwarning)]
    rfl
  have hwarnings : v.warnings = (c.finished roots).reporter.warnings := by rw [eq_of_run_ok h]
  calc v.warnings = Diagnostic.besides .doubleOptimization v.warnings := (List.filter_eq_self.2 hcode).symm
    _ = _ := by rw [hwarnings, Reporter.warnings, Diagnostic.besides, Diagnostic.besides, List.filter_comm]

/-- Two runs that end alike and keep the same but for duplicates have the same result but for these. -/
theorem Concur.sameBut {same : Prop} {rest : List Request} (h : Concur same (c.run roots).1 (c.run rest).1) (hsame : same)
    (hkept : Diagnostic.besides .doubleOptimization (c.finished rest).reporter.diagnostics =
      Diagnostic.besides .doubleOptimization (c.finished roots).reporter.diagnostics) :
    SameBut .doubleOptimization (c.run roots).1 (c.run rest).1 := by
  cases hrun : (c.run roots).1 with
  | ok v =>
    cases hrun' : (c.run rest).1 with
    | ok v' =>
      rw [hrun, hrun'] at h
      have hwarnings : v'.warnings = v.warnings := by rw [warnings_of_run_ok hrun, warnings_of_run_ok hrun', hkept]
      calc v' = ⟨v'.table, v'.warnings⟩ := rfl
        _ = ⟨v.table, v.warnings⟩ := by rw [show v'.table = v.table from h, hwarnings]
    | error f' =>
      rw [hrun, hrun'] at h
      exact h.elim
  | error f =>
    cases hrun' : (c.run rest).1 with
    | ok v' =>
      rw [hrun, hrun'] at h
      exact h.elim
    | error f' =>
      rw [hrun, hrun'] at h
      refine ⟨h.equal hsame, ?_⟩
      rw [diagnostics_of_run_error hrun, diagnostics_of_run_error hrun', hkept]

/-- Roots that are redundant at their turns can be left out, any number of them, where errors are let pass and nobody is
asked: the run ends alike, with the same table and the same conflicts, and it reports the same but for duplicates. -/
theorem redundant_roots_are_inert (c : Checker Model) (roots : List Request) (dropped : Nat → Bool)
    (hh : c.handler = none) (hr : c.settings.recoverErrors = true)
    (hd : ∀ i, dropped i = true → Redundant c.setup roots (c.session roots) i) :
    let rest := remaining dropped roots
    SameBut .doubleOptimization (c.run roots).1 (c.run rest).1 ∧
      (c.finished rest).table = (c.finished roots).table ∧
      c.conflicts? rest = c.conflicts? roots ∧
      Diagnostic.besides .doubleOptimization (c.finished rest).reporter.diagnostics =
        Diagnostic.besides .doubleOptimization (c.finished roots).reporter.diagnostics := by
  intro rest
  have hstart : (Concord.repeating c.setup).Matches (c.session roots) (c.session rest) :=
    ⟨rfl, rfl, rfl, rfl, fun _ => rfl, ⟨rfl, ⟨hh, hh⟩, rfl⟩, hr⟩
  have hdrain := Concord.drain_remaining hstart hd
  obtain ⟨hconcur, hmatches⟩ := Concord.concur rfl rfl hdrain id
  have hconflicts := Concord.conflicts_renamed rfl rfl hdrain id
  have hkept := hmatches.reporters.1.kept
  exact ⟨hconcur.sameBut rfl hkept, hmatches.table, Conflict.Renamed.eq_of_rel hconflicts rfl, hkept⟩

/-- The second function is requested again although the first one registered it, and then the first one is. -/
theorem redundant_roots_are_inert_sample :
    let roots : List Request := [.ofCallable ⟨0⟩, .ofCallable ⟨1⟩, .ofCallable ⟨2⟩, .ofCallable ⟨0⟩]
    (∀ i, (i == 1 || i == 3) = true → Redundant lenientSample.setup roots (lenientSample.session roots) i) ∧
      ∃ v, (lenientSample.run roots).1 = .ok v ∧
        (lenientSample.run [.ofCallable ⟨0⟩, .ofCallable ⟨2⟩]).1 = .ok v := by
  intro roots
  have hd : ∀ i, (i == 1 || i == 3) = true → Redundant lenientSample.setup roots (lenientSample.session roots) i := by
    intro i hi
    rw [Bool.or_eq_true, beq_iff_eq, beq_iff_eq] at hi
    rcases hi with rfl | rfl
    · obtain ⟨_, t, hx, hseen⟩ := exists_ok (x := drain lenientSample.setup (roots.take 1)
        (lenientSample.session roots)) (fun _ t => t.seen ⟨1⟩) (by decide +kernel)
      exact .of_seen rfl hx hseen
    · obtain ⟨_, t, hx, hseen⟩ := exists_ok (x := drain lenientSample.setup (roots.take 3)
        (lenientSample.session roots)) (fun _ t => t.seen ⟨0⟩) (by decide +kernel)
      exact .of_seen rfl hx hseen
  have hok : (lenientSample.run roots).1.toOption.any (fun _ => true) = true := by decide +kernel
  obtain ⟨v, hv, -⟩ := exists_ok_of_any hok
  obtain ⟨hsame, -⟩ := redundant_roots_are_inert lenientSample roots (fun i => i == 1 || i == 3) rfl rfl hd
  rw [hv, show remaining _ roots = [.ofCallable ⟨0⟩, .ofCallable ⟨2⟩] from rfl] at hsame
  refine ⟨hd, v, hv, ?_⟩
  cases hv' : (lenientSample.run [.ofCallable ⟨0⟩, .ofCallable ⟨2⟩]).1 with
  | ok v' =>
    rw [hv'] at hsame
    rw [show v' = v from hsame]
  | error f =>
    rw [hv'] at hsame
    exact hsame.elim

end Checker

end Independence
