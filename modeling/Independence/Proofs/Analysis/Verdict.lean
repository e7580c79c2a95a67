import Independence.Proofs.Analysis.Accounts
import Independence.Proofs.Analysis.Correspondence
import Independence.Proofs.Analysis.Phases
import Independence.Proofs.Analysis.Telling
/-!
# How a run begins and ends

A run begins with nothing open, and so it is again whenever a root was processed. It gets as far as the check of conflicts
if discovery succeeds and no record is definitely abrupt. From then on its end is a matter of the table that was
discovered: the conflicts are reported one after the other, and the run succeeds if there are none.
-/

namespace Independence

variable {s t : Session Model} {setup : Setup} {seen : Record → Record → List Location}

namespace Analysis

/-- Where no record is definitely abrupt, verification finds all conflicts and reports nothing. -/
theorem verify_finds (setup : Setup) (hsteady : Steady s seen) (hsimple : Simple s.table)
    (hcompletes : ∀ r ∈ s.table.records, r.effects.result.isDefinitelyAbrupt = false) :
    (verify setup).Ends s
      (fun conflicts t => conflicts = allConflicts s.table (setup.names.resolve s.evaluator) seen ∧
        t.reporter = s.reporter ∧ t.table = s.table) fun _ _ => False := by
  have hchecked : (checkCompletions setup).Ends s (fun _ t => t = s) fun _ _ => False := by
    rw [Ends, checkCompletions_ok setup hcompletes]
  have hfound : (verify setup).Ends s
      (fun conflicts _ => conflicts = allConflicts s.table (setup.names.resolve s.evaluator) seen) fun _ _ => False := by
    refine Ends.bind hchecked ?_
    rintro _ t rfl
    exact conflictsOfReplays_ends hsteady ⟨rfl, .refl _⟩
  exact (hfound.and (verify_tells setup hsimple)).mono (fun _ _ h => ⟨h.1, h.2.1, h.2.2.1⟩) fun _ _ h => h.1

end Analysis

namespace Checker

variable {c : Checker Model} {roots roots' : List Request}

/-! ## Between two roots -/

/-- Nothing is open, committed or pending, and there is no handler. -/
structure Idle (c : Checker Model) (s : Session Model) : Prop where
  amid : Analysis.Amid c.evaluator [] [] s
  accounted : s.Accounted
  pending : s.traversal.pending = []
  policy : s.reporter.policy = c.settings.policy
  handler : s.reporter.handler = none

theorem idle_session (hh : c.handler = none) (roots : List Request) : c.Idle (c.session roots) where
  amid := ⟨rfl, .start c.evaluator⟩
  accounted := .start _ _ _
  pending := rfl
  policy := rfl
  handler := hh

namespace Idle

theorem queued (h : c.Idle s) (queue : List Request) : c.Idle { s with queue } where
  amid := h.amid.aside rfl rfl rfl
  accounted := h.accounted.reframed rfl rfl (List.Subset.refl _)
  pending := h.pending
  policy := h.policy
  handler := h.handler

theorem depth (h : c.Idle s) : s.traversal.depth = 0 := by simp [Traversal.depth, h.amid.frames]

theorem processed {levels : Nat} {request : Request} (hw : c.evaluator.WellFormed) (h : c.Idle s)
    (hx : Analysis.process c.setup levels request s = .ok () t) : c.Idle t := by
  have hencloses : Analysis.Encloses [] [] := rfl
  have hleaves := (Analysis.process_leaves c.setup levels request s).of_ok hx
  have hreports := (Analysis.process_reports c.setup levels request s).of_ok hx
  exact {
    amid := (Analysis.process_ends hw levels request hencloses h.amid).of_ok hx
    accounted := ((Analysis.process_accounts c.setup levels request h.accounted).of_ok hx).1
    pending := hleaves.pending.trans (by rw [h.pending, List.append_nil])
    policy := hreports.policy.trans h.policy
    handler := hreports.handler.trans h.handler }

/-- Between two roots an analysis can take in others as it could at its start. -/
theorem beside (h : c.Idle s) (hh : c.handler = none) (roots : List Request) :
    Session.Beside c.evaluator s [] (c.session roots) s := by
  have hsession : c.session roots = .start c.evaluator roots (.new s.reporter.policy none (c.consulted.map Prod.fst)) := by
    rw [session, hh, h.policy]
  rw [hsession]
  exact Session.beside_start h.amid.discovering.under h.amid.frames h.pending h.handler roots s.queue _

end Idle

/-! ## Discovery and completions -/

/-- The run reports a conflict at the location. -/
def ConflictAt (c : Checker Model) (roots : List Request) (l : Location) : Prop :=
  ∃ f, (c.run roots).1 = .error f ∧ ∃ d ∈ f.withCode .writeConflict, d.location = some l

/-- Discovery ends in `s`, and no record there is definitely abrupt. -/
structure Discovered (c : Checker Model) (roots : List Request) (s : Session Model) : Prop where
  discover : Analysis.discover c.setup (c.session roots) = .ok () s
  completes : ∀ r ∈ s.table.records, r.effects.result.isDefinitelyAbrupt = false

/-- A run whose discovery or completions fail stops there. -/
theorem analyse_of_error {x : Failure} (h : (do Analysis.discover setup; Analysis.checkCompletions setup) s = .error x t) :
    Analysis.analyse setup s = .error x t := by
  simp only [Bind.bind, EStateM.bind] at h
  simp only [Analysis.analyse, Analysis.verify, Bind.bind, EStateM.bind]
  cases hd : Analysis.discover setup s with
  | error x t =>
    rw [hd] at h
    cases h
    rfl
  | ok _ u =>
    rw [hd] at h
    simp only [h]

/-- A run that gets past both. -/
theorem Discovered.of_ok
    (h : (do Analysis.discover c.setup; Analysis.checkCompletions c.setup) (c.session roots) = .ok () s) :
    c.Discovered roots s := by
  obtain ⟨_, u, hd, hc⟩ := Analysis.of_bind_ok h
  obtain ⟨rfl, hcompletes⟩ := (Analysis.checkCompletions_tells c.setup u).of_ok hc
  exact ⟨hd, hcompletes⟩

/-- A queue that is processed is discovered. -/
theorem Discovered.of_drain (hw : c.evaluator.WellFormed) (h : Analysis.drain c.setup roots (c.session roots) = .ok () t)
    (hcompletes : ∀ r ∈ t.table.records, r.effects.result.isDefinitelyAbrupt = false) : c.Discovered roots t := by
  have hamid : Analysis.Amid c.evaluator [] [] t :=
    (Analysis.drain_ends hw c.setup roots ⟨rfl, .start c.evaluator⟩).of_ok h
  refine ⟨?_, hcompletes⟩
  rcases Analysis.discover_cases c.setup (c.session roots) with
    ⟨u, hu, -, he⟩ | ⟨u, reporter, hu, hdepth, -⟩ | ⟨x, u, hu, -⟩
  · rw [he, ← hu]
    exact h
  · cases hu.symm.trans h
    simp [Traversal.depth, hamid.frames] at hdepth
  · cases hu.symm.trans h

/-- A run that gets as far as the check went through discovery, and no record was definitely abrupt. -/
theorem ReachesCheck.discovered (h : c.ReachesCheck roots) : ∃ s, c.Discovered roots s := by
  obtain ⟨s, -, -, hd, hzero, -⟩ := h.verified
  exact ⟨s, hd, Table.abruptCount_eq_zero.1 hzero⟩

/-! ## Verdicts -/

/-- The run reports these conflicts after the discovery that ended in `s`, and succeeds if there are none. -/
structure Verdict (c : Checker Model) (roots : List Request) (s : Session Model) (conflicts : List Conflict) : Prop where
  table : (c.finished roots).table = s.table
  reporter : (c.finished roots).reporter = s.reporter.reportAll (conflicts.map Conflict.diagnostic)
  result : (c.run roots).1 = if conflicts.isEmpty then .ok ⟨s.table, (c.finished roots).reporter.warnings⟩
    else .error ⟨.writeConflicts conflicts.length, (c.finished roots).reporter.diagnostics⟩

namespace Verdict

variable {conflicts : List Conflict} (h : c.Verdict roots s conflicts)
include h

theorem reachesCheck : c.ReachesCheck roots := by
  have hrun := h.result
  split at hrun
  · exact .inl ⟨_, hrun⟩
  · exact .inr ⟨_, _, hrun, rfl⟩

theorem ok_iff : (∃ v, (c.run roots).1 = .ok v) ↔ conflicts = [] := by
  rw [h.result]
  cases conflicts <;> simp

/-- Callables requested twice are reported during discovery. -/
theorem told_doubleOptimization_iff :
    (c.finished roots).reporter.Told .doubleOptimization ↔ s.reporter.Told .doubleOptimization := by
  rw [h.reporter, Reporter.told_reportAll_iff, or_iff_right]
  rintro ⟨d, hd, hcode⟩
  obtain ⟨conflict, -, rfl⟩ := List.mem_map.1 hd
  cases hcode

/-- If no conflict was reported before, the run reports conflicts where these are. -/
theorem conflictAt_iff (hbefore : ¬ s.reporter.Told .writeConflict) {l : Location} :
    c.ConflictAt roots l ↔ l ∈ conflicts.map Conflict.location := by
  have hlocated : (∃ d ∈ conflicts.map Conflict.diagnostic, d.code = .writeConflict ∧ d.location = some l) ↔
      l ∈ conflicts.map Conflict.location := by
    constructor
    · rintro ⟨d, hd, -, hl⟩
      obtain ⟨conflict, hconflict, rfl⟩ := List.mem_map.1 hd
      exact List.mem_map.2 ⟨conflict, hconflict, Option.some.inj hl⟩
    · intro hl
      obtain ⟨conflict, hconflict, rfl⟩ := List.mem_map.1 hl
      exact ⟨_, List.mem_map_of_mem hconflict, rfl, rfl⟩
  have htold := s.reporter.toldAt_reportAll_iff .writeConflict l (conflicts.map Conflict.diagnostic)
  rw [or_iff_left fun hat => hbefore hat.told, hlocated, ← h.reporter] at htold
  rw [← htold, ConflictAt, h.result]
  split
  · next hempty =>
    rw [h.reporter, List.isEmpty_iff.1 hempty]
    simpa [Reporter.reportAll] using fun hat => hbefore (Reporter.ToldAt.told hat)
  · simp [FailedRun.withCode, Reporter.ToldAt, and_assoc]

end Verdict

section Discovered
variable (hd : c.Discovered roots s)
include hd

theorem Discovered.drain : Analysis.drain c.setup roots (c.session roots) = .ok () s := by
  rcases Analysis.discover_cases c.setup (c.session roots) with
    ⟨u, hu, -, he⟩ | ⟨u, reporter, -, -, he⟩ | ⟨x, u, -, he⟩ <;> cases he.symm.trans hd.discover
  exact hu

theorem Discovered.not_told_writeConflict : ¬ s.reporter.Told .writeConflict := fun h =>
  Reporter.not_told_new _ _ _ _ (((Analysis.discover_reports c.setup _).of_ok hd.discover).conflicts h)

/-- The verdict is on the conflicts of the table that was discovered. -/
theorem Discovered.verdict (hsteady : Analysis.Steady s seen) :
    c.Verdict roots s (Analysis.allConflicts s.table (c.names.resolve s.evaluator) seen) := by
  have hsimple : Analysis.Simple s.table :=
    (Analysis.discover_simple c.setup (fun _ h => by cases h)).of_ok hd.discover
  have hverify := Analysis.verify_finds c.setup hsteady hsimple hd.completes
  rw [Analysis.Ends] at hverify
  cases hv : Analysis.verify c.setup s with
  | error x t =>
    rw [hv] at hverify
    exact hverify.elim
  | ok conflicts t =>
    rw [hv] at hverify
    obtain ⟨hconflicts, hreporter, htable⟩ := hverify
    have hnames : c.setup.names.resolve s.evaluator = c.names.resolve s.evaluator := rfl
    rw [← hnames, ← hconflicts]
    have hx : Analysis.analyse c.setup (c.session roots) =
        if conflicts.isEmpty then .ok () { t with reporter := s.reporter.reportAll (conflicts.map Conflict.diagnostic) }
        else .error (.writeConflicts conflicts.length)
          { t with reporter := s.reporter.reportAll (conflicts.map Conflict.diagnostic) } := by
      simp only [Analysis.analyse, Bind.bind, EStateM.bind, hd.discover, hv, Analysis.reportConflicts_eq,
        Session.reportAll, hreporter]
      cases conflicts <;> rfl
    split at hx
    · next hempty =>
      obtain ⟨hrun, hfinished⟩ := run_of_ok hx
      exact ⟨by rw [hfinished]; exact htable, by rw [hfinished], by rw [hrun, hfinished, if_pos hempty, htable]⟩
    · next hempty =>
      obtain ⟨hrun, hfinished⟩ := run_of_error hx
      exact ⟨by rw [hfinished]; exact htable, by rw [hfinished], by rw [hrun, hfinished, if_neg hempty]⟩

variable (hw : c.evaluator.WellFormed)
include hw

theorem Discovered.amid : Analysis.Amid c.evaluator [] [] s :=
  (Analysis.discover_ends hw c.setup roots _).of_ok hd.discover

theorem Discovered.exists_verdict : ∃ seen, Analysis.SeenIn c.evaluator s.table s.evaluator seen ∧
    c.Verdict roots s (Analysis.allConflicts s.table (c.names.resolve s.evaluator) seen) := by
  have hdiscovering := (hd.amid hw).discovering
  obtain ⟨seen, hseen⟩ := Analysis.exists_seenIn hw hdiscovering
  exact ⟨seen, hseen, hd.verdict (hseen.steady hdiscovering)⟩

end Discovered

/-- If the records of one run have corresponding ones in another, so have its conflicts. -/
theorem Discovered.compare (hw : c.evaluator.WellFormed) (hd : c.Discovered roots s) (hd' : c.Discovered roots' t)
    (h : s.table.Embeds c.evaluator t.table) : (∀ l, c.ConflictAt roots l → c.ConflictAt roots' l) ∧
      ((∃ v, (c.run roots').1 = .ok v) → ∃ v, (c.run roots).1 = .ok v) := by
  obtain ⟨seen, hseen, hverdict⟩ := hd.exists_verdict hw
  obtain ⟨seen', hseen', hverdict'⟩ := hd'.exists_verdict hw
  have hlocations := Analysis.locations_subset_of_embeds hw (hd.amid hw).discovering (hd'.amid hw).discovering hseen hseen'
    (c.names.resolve s.evaluator) (c.names.resolve t.evaluator) h
  refine ⟨fun l hl => ?_, fun hok => ?_⟩
  · rw [hverdict.conflictAt_iff hd.not_told_writeConflict] at hl
    exact (hverdict'.conflictAt_iff hd'.not_told_writeConflict).2 (hlocations hl)
  · rw [hverdict'.ok_iff.1 hok] at hlocations
    exact hverdict.ok_iff.2 (List.map_eq_nil_iff.1 (List.subset_nil.1 hlocations))

end Checker

end Independence
