import Independence.Proofs.Analysis.Conflicts
import Independence.Proofs.Analysis.Reporting
import Independence.Proofs.Analysis.Restoration
/-!
# The phases of an analysis

Discovery comes first, then the check of completions, then the replays with the check of conflicts. Each phase begins only
when the one before it succeeded, and the failure tells which one stopped the analysis.
-/

namespace Independence

variable {s t u : Session Model} {setup : Setup}

namespace Analysis

theorem reportConflicts_eq (conflicts : List Conflict) (s : Session Model) :
    reportConflicts conflicts s = .ok (if conflicts.isEmpty then .proceed else .abort)
      (s.reportAll (conflicts.map Conflict.diagnostic)) := by
  have hall : ∀ s : Session Model, (conflicts.forM fun c => do let _ ← report c.diagnostic) s =
      .ok ⟨⟩ (s.reportAll (conflicts.map Conflict.diagnostic)) := by
    induction conflicts with
    | nil => exact fun _ => rfl
    | cons c cs ih => exact fun s => ih (s.reportAll [c.diagnostic])
  change EStateM.bind (conflicts.forM _) _ s = _
  rw [EStateM.bind, hall]
  rfl

/-- The conflicts that verification finds are at different locations. -/
theorem verify_nodup (setup : Setup) (s : Session Model) :
    (verify setup).Ends s (fun conflicts _ => (conflicts.map Conflict.location).Nodup) fun _ _ => True := by
  refine Ends.bind (Q := fun _ _ => True) ((checkCompletions_ends setup s).mono (fun _ _ _ => trivial) fun _ _ _ => trivial) ?_
  intro _ t _
  refine Ends.bind (Q := fun _ _ => True) ?_ fun observed u _ => Ends.get (Ends.pure (Conflict.nodup_firstAtEach _))
  unfold Ends
  cases replayAll setup t <;> trivial

/-- Verification stops if some records are definitely abrupt, and otherwise it ends with the conflicts that it found. -/
theorem verify_cases (setup : Setup) (hs : Simple s.table) :
    (0 < s.table.abruptCount ∧ verify setup s = .error (.abruptCompletion s.table.abruptCount)
      (s.reportAll (s.table.abruptDiagnostics (setup.names.resolve s.evaluator)))) ∨
    (s.table.abruptCount = 0 ∧ ∃ conflicts t, verify setup s = .ok conflicts t) := by
  by_cases hcount : 0 < s.table.abruptCount
  · refine .inl ⟨hcount, ?_⟩
    simp only [verify, Bind.bind, EStateM.bind, checkCompletions_eq, if_pos hcount]
  · refine .inr ⟨Nat.eq_zero_of_not_pos hcount, ?_⟩
    have hreplays := replayAll_reports_nothing setup hs
    simp only [verify, Bind.bind, EStateM.bind, checkCompletions_eq, if_neg hcount]
    cases hr : replayAll setup s with
    | error x t =>
      rw [Ends, hr] at hreplays
      exact hreplays.elim
    | ok observed t => exact ⟨_, t, rfl⟩

/-- Discovery does not fail because of conflicts, and not because of completions either. -/
theorem discover_error_ne (setup : Setup) {x : Failure} (h : discover setup s = .error x t) (count : Nat) :
    x ≠ .writeConflicts count ∧ x ≠ .abruptCompletion count := by
  have hkind : x.isRefusal = true ∨ x.ofEvaluation = true ∨ ∃ depth, x = .notUnwound depth := by
    have hdrain := drain_leaves setup s.queue s
    rcases discover_cases setup s with ⟨u, hd, -, he⟩ | ⟨u, reporter, hd, -, he⟩ | ⟨x, u, hd, he⟩ <;> rw [he] at h <;>
      cases h
    · exact .inr (.inr ⟨_, rfl⟩)
    · rw [Ends, hd] at hdrain
      exact hdrain.imp And.left fun h => .inl h.1
  constructor <;> rintro rfl <;> obtain hx | hx | ⟨depth, hx⟩ := hkind <;> cases hx

end Analysis

namespace Checker

variable {c : Checker Model} {roots : List Request}

theorem run_of_error {x : Failure} (h : Analysis.analyse c.setup (c.session roots) = .error x t) :
    (c.run roots).1 = .error ⟨x, t.reporter.diagnostics⟩ ∧ c.finished roots = t := by
  simp [run, finished, h, finalState]

theorem run_of_ok (h : Analysis.analyse c.setup (c.session roots) = .ok () t) :
    (c.run roots).1 = .ok ⟨t.table, t.reporter.warnings⟩ ∧ c.finished roots = t := by
  simp [run, finished, h, finalState]

/-- How a run ends, by the phase in which it does. -/
inductive Phases (c : Checker Model) (roots : List Request) : Except FailedRun Verified → Prop
  /-- Discovery fails. -/
  | undiscovered {x : Failure} {s : Session Model} (hd : Analysis.discover c.setup (c.session roots) = .error x s)
    (hfinished : c.finished roots = s) : Phases c roots (.error ⟨x, (c.finished roots).reporter.diagnostics⟩)
  /-- Some records are definitely abrupt, and nothing is replayed. -/
  | abrupt {s : Session Model} (hd : Analysis.discover c.setup (c.session roots) = .ok () s)
    (hcount : 0 < s.table.abruptCount)
    (hfinished : c.finished roots = s.reportAll (s.table.abruptDiagnostics (c.names.resolve s.evaluator))) :
    Phases c roots (.error ⟨.abruptCompletion s.table.abruptCount, (c.finished roots).reporter.diagnostics⟩)
  /-- The replays show conflicts. -/
  | conflicting {s t : Session Model} {conflicts : List Conflict}
    (hd : Analysis.discover c.setup (c.session roots) = .ok () s) (hcount : s.table.abruptCount = 0)
    (hv : Analysis.verify c.setup s = .ok conflicts t) (hne : conflicts ≠ [])
    (hfinished : c.finished roots = t.reportAll (conflicts.map Conflict.diagnostic)) :
    Phases c roots (.error ⟨.writeConflicts conflicts.length, (c.finished roots).reporter.diagnostics⟩)
  /-- The replays show no conflict. -/
  | independent {s t : Session Model} (hd : Analysis.discover c.setup (c.session roots) = .ok () s)
    (hcount : s.table.abruptCount = 0) (hv : Analysis.verify c.setup s = .ok [] t) (hfinished : c.finished roots = t) :
    Phases c roots (.ok ⟨(c.finished roots).table, (c.finished roots).reporter.warnings⟩)

theorem phases (c : Checker Model) (roots : List Request) : c.Phases roots (c.run roots).1 := by
  have herror : ∀ {x t}, Analysis.analyse c.setup (c.session roots) = .error x t →
      (c.run roots).1 = .error ⟨x, (c.finished roots).reporter.diagnostics⟩ := by
    intro x t hx
    rw [(run_of_error hx).1, (run_of_error hx).2]
  cases hd : Analysis.discover c.setup (c.session roots) with
  | error x s =>
    have hx : Analysis.analyse c.setup (c.session roots) = .error x s := by
      simp only [Analysis.analyse, Bind.bind, EStateM.bind, hd]
    rw [herror hx]
    exact .undiscovered hd (run_of_error hx).2
  | ok _ s =>
    have hsimple : Analysis.Simple s.table := (Analysis.discover_simple c.setup fun _ h => by cases h).of_ok hd
    rcases Analysis.verify_cases c.setup hsimple with ⟨hcount, hv⟩ | ⟨hcount, conflicts, t, hv⟩
    · have hx : Analysis.analyse c.setup (c.session roots) = .error (.abruptCompletion s.table.abruptCount)
          (s.reportAll (s.table.abruptDiagnostics (c.names.resolve s.evaluator))) := by
        simp only [Analysis.analyse, Bind.bind, EStateM.bind, hd, hv]
        rfl
      rw [herror hx]
      exact .abrupt hd hcount (run_of_error hx).2
    · cases conflicts with
      | nil =>
        have hx : Analysis.analyse c.setup (c.session roots) = .ok () t := by
          simp only [Analysis.analyse, Bind.bind, EStateM.bind, hd, hv, Analysis.reportConflicts_eq]
          rfl
        obtain ⟨hrun, hfinished⟩ := run_of_ok hx
        rw [hrun, ← hfinished]
        exact .independent hd hcount hv hfinished
      | cons conflict conflicts =>
        have hx : Analysis.analyse c.setup (c.session roots) = .error (.writeConflicts (conflict :: conflicts).length)
            (t.reportAll ((conflict :: conflicts).map Conflict.diagnostic)) := by
          simp only [Analysis.analyse, Bind.bind, EStateM.bind, hd, hv, Analysis.reportConflicts_eq]
          rfl
        rw [herror hx]
        exact .conflicting hd hcount hv (List.cons_ne_nil _ _) (run_of_error hx).2

/-- A run that succeeds has the table and the warnings with which it ended as its result. -/
theorem eq_of_run_ok {v : Verified} (h : (c.run roots).1 = .ok v) :
    v = ⟨(c.finished roots).table, (c.finished roots).reporter.warnings⟩ := by
  have hphases := c.phases roots
  rw [h] at hphases
  cases hphases
  rfl

/-- One that fails has all diagnostics as its result. -/
theorem diagnostics_of_run_error {f : FailedRun} (h : (c.run roots).1 = .error f) :
    f.diagnostics = (c.finished roots).reporter.diagnostics := by
  have hphases := c.phases roots
  rw [h] at hphases
  cases hphases <;> rfl

/-- The run gets as far as the check of conflicts: it succeeds, or it fails because of conflicts. -/
def ReachesCheck (c : Checker Model) (roots : List Request) : Prop :=
  (∃ v, (c.run roots).1 = .ok v) ∨ ∃ f count, (c.run roots).1 = .error f ∧ f.failure = .writeConflicts count

/-- A run that gets as far as the check went through discovery and all replays, and then reported the conflicts. -/
theorem ReachesCheck.verified (h : c.ReachesCheck roots) : ∃ s t conflicts,
    Analysis.discover c.setup (c.session roots) = .ok () s ∧ s.table.abruptCount = 0 ∧
      Analysis.verify c.setup s = .ok conflicts t ∧ c.finished roots = t.reportAll (conflicts.map Conflict.diagnostic) := by
  have hphases := c.phases roots
  rcases h with ⟨v, hrun⟩ | ⟨f, count, hf, hcount⟩
  · rw [hrun] at hphases
    cases hphases with
    | independent hd hzero hv hfinished => exact ⟨_, _, [], hd, hzero, hv, hfinished⟩
  · rw [hf] at hphases
    cases hphases with
    | undiscovered hd _ => exact absurd hcount (Analysis.discover_error_ne c.setup hd count).1
    | abrupt _ _ _ => cases hcount
    | conflicting hd hzero hv _ hfinished => exact ⟨_, _, _, hd, hzero, hv, hfinished⟩

/-- A run that succeeds ends as its discovery did, as far as table and reports go. -/
theorem exists_discover_of_run {c : Checker Model} {roots : List Request} {v : Verified}
    (hrun : (c.run roots).1 = .ok v) : ∃ s, Analysis.discover c.setup (c.session roots) = .ok () s ∧
      v = ⟨s.table, s.reporter.warnings⟩ ∧ s.reporter.Clear := by
  have hempty : Analysis.Simple (c.session roots).table := fun _ h => by cases h
  have hphases := c.phases roots
  have hclear := Analysis.analyse_accountable c.setup hempty
    (Reporter.clear_new c.settings.policy c.handler (c.consulted.map Prod.fst))
  rw [hrun] at hphases
  cases hphases with
  | @independent s t hd hcount hv hfinished =>
    have hsimple : Analysis.Simple s.table := (Analysis.discover_simple c.setup hempty).of_ok hd
    obtain ⟨hreporter, htable, -⟩ := (Analysis.verify_tells c.setup hsimple).of_ok hv
    refine ⟨s, hd, by rw [hfinished, hreporter, htable], ?_⟩
    cases hx : Analysis.analyse c.setup (c.session roots) with
    | error x u =>
      rw [(run_of_error hx).1] at hrun
      cases hrun
    | ok _ u =>
      have hu : t = u := hfinished.symm.trans (run_of_ok hx).2
      rw [← hreporter, hu]
      exact hclear.of_ok hx

end Checker

end Independence
