import Independence.Proofs.Analysis.Counting
import Independence.Proofs.Analysis.Telling
/-!
# Each phase keeps to its own

Conflicts are reported by the last phase alone, each at a location of its own, so none of the reports repeats another one
and the count of the failure is that of the diagnostics. Where records are definitely abrupt the run stops before that:
what was captured is reported, and nothing is replayed.
-/

namespace Independence

variable {s t : Session Model}

namespace Checker

variable {c : Checker Model} {roots : List Request} {f : FailedRun} {count : Nat}

/-- What a run keeps of its discovery are diagnostics of discovery. -/
theorem discover_ofDiscovery (c : Checker Model) (roots : List Request) :
    (Analysis.discover c.setup).Ends (c.session roots) (fun _ t => ∀ d ∈ t.reporter.diagnostics, d.OfDiscovery)
      fun _ t => ∀ d ∈ t.reporter.diagnostics, d.OfDiscovery := by
  have hkept : ∀ t, (c.session roots).Tells t → ∀ d ∈ t.reporter.diagnostics, d.OfDiscovery := by
    rintro t ⟨ds, hds, ht⟩ d hd
    rw [ht] at hd
    exact hds d ((Reporter.mem_of_mem_reportAll hd).resolve_left (by simp [session, Session.start, Reporter.new]))
  exact (Analysis.discover_tells c.setup (c.session roots)).mono (fun _ => hkept) fun _ => hkept

/-! ## Conflicts -/

/-- The kept diagnostics of conflicts are those of the conflicts that verification found. -/
theorem withCode_writeConflict {conflicts : List Conflict} (hd : Analysis.discover c.setup (c.session roots) = .ok () s)
    (hv : Analysis.verify c.setup s = .ok conflicts t) :
    (t.reportAll (conflicts.map Conflict.diagnostic)).reporter.diagnostics.filter (·.code == .writeConflict) =
      conflicts.map Conflict.diagnostic := by
  have hsimple : Analysis.Simple s.table := (Analysis.discover_simple c.setup fun _ h => by cases h).of_ok hd
  have hdiscovery := (c.discover_ofDiscovery roots).of_ok hd
  obtain ⟨hreporter, -, -⟩ := (Analysis.verify_tells c.setup hsimple).of_ok hv
  have hnodup := (Analysis.verify_nodup c.setup s).of_ok hv
  rw [← hreporter] at hdiscovery
  -- No conflict repeats an earlier report, because of its code, or another conflict, because of its location.
  have hold : ∀ e ∈ t.reporter.diagnostics, ∀ d ∈ conflicts.map Conflict.diagnostic, e.sameReport d = false := by
    intro e he d hd
    obtain ⟨conflict, -, rfl⟩ := List.mem_map.1 hd
    rw [← Bool.not_eq_true]
    exact fun hsame => (hdiscovery e he).conflict (Diagnostic.code_of_sameReport hsame)
  have hnew : (conflicts.map Conflict.diagnostic).Pairwise fun d e => d.sameReport e = false := by
    refine List.pairwise_map.2 ((List.pairwise_map.1 hnodup).imp fun {a b} hne => ?_)
    rw [← Bool.not_eq_true]
    exact fun hsame => hne (Option.some.inj (Diagnostic.location_of_sameReport hsame))
  have hkept : (t.reportAll (conflicts.map Conflict.diagnostic)).reporter.diagnostics =
      t.reporter.diagnostics ++ conflicts.map Conflict.diagnostic := Reporter.diagnostics_reportAll hold hnew
  have hnone : t.reporter.diagnostics.filter (·.code == .writeConflict) = [] :=
    List.filter_eq_nil_iff.2 fun d hd => by simpa using (hdiscovery d hd).conflict
  have hall : (conflicts.map Conflict.diagnostic).filter (·.code == .writeConflict) = conflicts.map Conflict.diagnostic := by
    refine List.filter_eq_self.2 fun d hd => ?_
    obtain ⟨conflict, -, rfl⟩ := List.mem_map.1 hd
    rfl
  rw [hkept, List.filter_append, hnone, hall, List.nil_append]

/-- A run that fails because of conflicts keeps one diagnostic for each of them. -/
theorem conflicts_of_error (hf : (c.run roots).1 = .error f) (hcount : f.failure = .writeConflicts count) :
    ∃ conflicts : List Conflict, conflicts ≠ [] ∧ conflicts.length = count ∧ (conflicts.map Conflict.location).Nodup ∧
      f.withCode .writeConflict = conflicts.map Conflict.diagnostic := by
  have hphases := c.phases roots
  rw [hf] at hphases
  cases hphases with
  | undiscovered hd _ => exact absurd hcount (Analysis.discover_error_ne c.setup hd count).1
  | abrupt _ _ _ => cases hcount
  | @conflicting s t conflicts hd _ hv hne hfinished =>
    cases hcount
    refine ⟨conflicts, hne, rfl, (Analysis.verify_nodup c.setup s).of_ok hv, ?_⟩
    rw [← withCode_writeConflict hd hv, ← hfinished]
    rfl

/-- Where a diagnostic of a conflict is kept the run failed because of conflicts. -/
theorem error_of_told_writeConflict (h : (c.finished roots).reporter.Told .writeConflict) :
    ∃ f count, (c.run roots).1 = .error f ∧ f.failure = .writeConflicts count := by
  have hdiscovery := c.discover_ofDiscovery roots
  have hno : ∀ {t : Session Model}, (∀ d ∈ t.reporter.diagnostics, d.OfDiscovery) → ¬ t.reporter.Told .writeConflict :=
    fun hall ⟨d, hd, hcode⟩ => (hall d hd).conflict hcode
  have hphases := c.phases roots
  generalize (c.run roots).1 = result at hphases ⊢
  cases hphases with
  | undiscovered hd hfinished =>
    rw [hfinished] at h
    rw [Analysis.Ends, hd] at hdiscovery
    exact absurd h (hno hdiscovery)
  | abrupt hd _ hfinished =>
    rw [hfinished] at h
    rcases (Reporter.told_reportAll_iff _ _ _).1 h with ⟨d, hmem, hcode⟩ | htold
    · rw [Table.code_of_mem_abruptDiagnostics hmem] at hcode
      cases hcode
    · exact absurd htold (hno (hdiscovery.of_ok hd))
  | conflicting _ _ _ _ _ => exact ⟨_, _, rfl, rfl⟩
  | @independent s t hd _ hv hfinished =>
    have hsimple : Analysis.Simple s.table := (Analysis.discover_simple c.setup fun _ h => by cases h).of_ok hd
    obtain ⟨hreporter, -, -⟩ := (Analysis.verify_tells c.setup hsimple).of_ok hv
    rw [hfinished, hreporter] at h
    exact absurd h (hno (hdiscovery.of_ok hd))

/-! ## Completions -/

/-- A run that fails because of completions found some of what it discovered definitely abrupt, and ends as its discovery
did, but for the reports. -/
theorem finished_of_abruptCompletion (hf : (c.run roots).1 = .error f) (hcount : f.failure = .abruptCompletion count) :
    ∃ s, Analysis.discover c.setup (c.session roots) = .ok () s ∧ 0 < count ∧ s.table.abruptCount = count ∧
      c.finished roots = s.reportAll (s.table.abruptDiagnostics (c.names.resolve s.evaluator)) := by
  have hphases := c.phases roots
  rw [hf] at hphases
  cases hphases with
  | undiscovered hd _ => exact absurd hcount (Analysis.discover_error_ne c.setup hd count).2
  | abrupt hd hpos hfinished =>
    cases hcount
    exact ⟨_, hd, hpos, rfl, hfinished⟩
  | conflicting _ _ _ _ _ => cases hcount

/-- A run fails because of completions exactly if some of what it discovered is definitely abrupt, and with it ends. -/
theorem abruptCompletion_iff (c : Checker Model) (roots : List Request) (count : Nat) :
    (∃ f, (c.run roots).1 = .error f ∧ f.failure = .abruptCompletion count) ↔
      ∃ s, Analysis.discover c.setup (c.session roots) = .ok () s ∧ 0 < count ∧ s.table.abruptCount = count := by
  constructor
  · rintro ⟨f, hf, hcount⟩
    obtain ⟨s, hd, hpos, habrupt, -⟩ := finished_of_abruptCompletion hf hcount
    exact ⟨s, hd, hpos, habrupt⟩
  · rintro ⟨s, hs, hpos, rfl⟩
    have hphases := c.phases roots
    generalize (c.run roots).1 = result at hphases ⊢
    cases hphases with
    | undiscovered hd _ =>
      rw [hs] at hd
      cases hd
    | abrupt hd _ _ =>
      rw [hs] at hd
      cases hd
      exact ⟨_, rfl, rfl⟩
    | conflicting hd hzero _ _ _ | independent hd hzero _ _ =>
      rw [hs] at hd
      cases hd
      exact absurd hzero (Nat.ne_of_gt hpos)

/-- Every record that is definitely abrupt is reported where its call threw, with the name of the candidate. -/
theorem abrupt_is_reported (hd : Analysis.discover c.setup (c.session roots) = .ok () s) {r : Record}
    (hr : r ∈ s.table.records) {a : Abrupt} (ha : r.effects.result = .abrupt a) : ∃ l, a.location = some l ∧
      ∃ d ∈ (s.reportAll (s.table.abruptDiagnostics (c.names.resolve s.evaluator))).reporter.diagnostics,
        d.code = .abruptCompletion ∧ d.location = some l ∧
        d.message = s!"Optimized function {c.names.resolve c.evaluator r.owner} {a.verb} on every path" := by
  have hcounted := (Analysis.discover_counts (.start c.evaluator roots _ .none)).of_ok hd
  obtain ⟨i, hi⟩ := List.mem_iff_getElem?.1 hr
  obtain ⟨before, after, call, es, -, -, htrace⟩ := hcounted.evaluated i r hi
  obtain ⟨l, hl⟩ := Model.exists_location_of_abrupt htrace ha
  have hunder : c.evaluator.Under [] s.evaluator := (Analysis.discover_restores c.setup (c.session roots)).of_ok hd
  obtain ⟨d, hd, hsame⟩ := s.reporter.has_reportAll (Table.mem_abruptDiagnostics hr ha (c.names.resolve s.evaluator))
  refine ⟨l, hl, d, hd, Diagnostic.code_of_sameReport hsame, ?_, ?_⟩
  · rw [Diagnostic.location_of_sameReport hsame, ← hl]
    simp [Analysis.abruptDiagnostic, Diagnostic.fatal, Diagnostic.new, hl]
  · rw [Diagnostic.message_of_sameReport hsame, c.names.resolve_congr hunder.functions]
    rfl

/-! ## The whole -/

/-- Each phase keeps to its own, in every run. A diagnostic of a conflict is kept exactly if the run fails because of
conflicts; then there are as many as the failure says, all fatal, at different locations. The run fails because of
completions exactly if discovery succeeds and some records are definitely abrupt, and with their number; then nothing was
evaluated behind the captures and no placeholder was made, and each of these records is told of where it throws. -/
theorem phases_keep_to_their_own (c : Checker Model) (roots : List Request) :
    (∀ f, (c.run roots).1 = .error f → f.diagnostics = (c.finished roots).reporter.diagnostics) ∧
    ((∃ d ∈ (c.finished roots).reporter.diagnostics, d.code = .writeConflict) ↔
      ∃ f count, (c.run roots).1 = .error f ∧ f.failure = .writeConflicts count) ∧
    (∀ f count, (c.run roots).1 = .error f → f.failure = .writeConflicts count →
      (f.withCode .writeConflict).length = count ∧ (∀ d ∈ f.withCode .writeConflict, d.severity = .fatal) ∧
      ∃ locations : List Location, locations.Nodup ∧
        (f.withCode .writeConflict).map Diagnostic.location = locations.map some) ∧
    (∀ count, (∃ f, (c.run roots).1 = .error f ∧ f.failure = .abruptCompletion count) ↔
      ∃ s, Analysis.discover c.setup (c.session roots) = .ok () s ∧ 0 < count ∧ s.table.abruptCount = count) ∧
    ∀ f count, (c.run roots).1 = .error f → f.failure = .abruptCompletion count →
      ∃ s, Analysis.discover c.setup (c.session roots) = .ok () s ∧
        (c.finished roots).evaluator = s.evaluator ∧ (c.finished roots).placeholders = s.placeholders ∧
        (c.run roots).2.evaluator.evaluations = c.evaluator.evaluations + s.table.size ∧
        ∀ r ∈ s.table.records, ∀ a, r.effects.result = .abrupt a → ∃ l, a.location = some l ∧ ∃ d ∈ f.diagnostics,
          d.code = .abruptCompletion ∧ d.location = some l ∧
          d.message = s!"Optimized function {c.names.resolve c.evaluator r.owner} {a.verb} on every path" := by
  refine ⟨fun f => diagnostics_of_run_error, ⟨error_of_told_writeConflict, ?_⟩, fun f count hf hcount => ?_,
    abruptCompletion_iff c roots, fun f count hf hcount => ?_⟩
  · rintro ⟨f, count, hf, hcount⟩
    obtain ⟨conflicts, hne, -, -, hwith⟩ := conflicts_of_error hf hcount
    obtain ⟨conflict, hconflict⟩ := List.exists_mem_of_ne_nil conflicts hne
    have hmem : conflict.diagnostic ∈ f.withCode .writeConflict := hwith ▸ List.mem_map_of_mem hconflict
    exact ⟨_, diagnostics_of_run_error hf ▸ List.mem_of_mem_filter hmem, rfl⟩
  · obtain ⟨conflicts, -, hlength, hnodup, hwith⟩ := conflicts_of_error hf hcount
    rw [hwith]
    refine ⟨by rw [List.length_map, hlength], fun d hd => ?_, conflicts.map Conflict.location, hnodup, ?_⟩
    · obtain ⟨conflict, -, rfl⟩ := List.mem_map.1 hd
      rfl
    · rw [List.map_map, List.map_map]
      rfl
  · obtain ⟨s, hd, -, -, hfinished⟩ := finished_of_abruptCompletion hf hcount
    have hcounted := (Analysis.discover_counts (.start c.evaluator roots _ .none)).of_ok hd
    refine ⟨s, hd, by rw [hfinished]; rfl, by rw [hfinished]; rfl, ?_, fun r hr a ha => ?_⟩
    · rw [run_leaves, hfinished]
      exact hcounted.evaluations
    · rw [diagnostics_of_run_error hf, hfinished]
      exact abrupt_is_reported hd hr ha

/-- The first function writes what the second one reads, and then does something else. -/
def writerThen (last : Op) : Checker Model :=
  let signature (name : String) : Signature := ⟨some name, [], ⟨"sample", .dummy⟩⟩
  let writer : Body := .op (.write (.object ⟨0⟩) ⟨0⟩ (.primitive .null) (.ofLine 1)) (.op last .done)
  let reader : Body := .op (.read (.object ⟨0⟩) ⟨0⟩ (.ofLine 3)) .done
  ⟨{ Model.new "sample" with
      functions := [⟨signature "writer", writer⟩, ⟨signature "reader", reader⟩]
      heap := Heap.empty.addObject ⟨0⟩
      nextObject := 1 }, {}, .empty, none, []⟩

/-- If it throws the run stops after the two captures and tells nothing of the conflict. If it only may throw, the run
fails because of the conflict. -/
theorem phases_keep_to_their_own_writerThen :
    let roots : List Request := [.ofCallable ⟨0⟩, .ofCallable ⟨1⟩]
    let throws := writerThen (.throw (.ofLine 2))
    let mayThrow := writerThen (.mayThrow (.ofLine 2))
    (∃ f s, (throws.run roots).1 = .error f ∧ f.failure = .abruptCompletion 1 ∧
      ¬ (∃ d ∈ (throws.finished roots).reporter.diagnostics, d.code = .writeConflict) ∧
      Analysis.discover throws.setup (throws.session roots) = .ok () s ∧
      (throws.run roots).2.evaluator.evaluations = throws.evaluator.evaluations + s.table.size) ∧
    ∃ f, (mayThrow.run roots).1 = .error f ∧ f.failure = .writeConflicts 1 ∧ (f.withCode .writeConflict).length = 1 := by
  intro roots throws mayThrow
  have habrupt : ∃ f, (throws.run roots).1 = .error f ∧ f.failure = .abruptCompletion 1 := by
    have h : (match (throws.run roots).1 with
      | .error ⟨.abruptCompletion 1, _⟩ => true
      | _ => false) = true := by decide +kernel
    split at h
    · next hrun => exact ⟨_, hrun, rfl⟩
    · cases h
  have hconflict : ∃ f, (mayThrow.run roots).1 = .error f ∧ f.failure = .writeConflicts 1 := by
    have h : (match (mayThrow.run roots).1 with
      | .error ⟨.writeConflicts 1, _⟩ => true
      | _ => false) = true := by decide +kernel
    split at h
    · next hrun => exact ⟨_, hrun, rfl⟩
    · cases h
  obtain ⟨f, hf, hcount⟩ := habrupt
  obtain ⟨g, hg, hcount'⟩ := hconflict
  obtain ⟨-, htold, -, -, hstops⟩ := phases_keep_to_their_own throws roots
  obtain ⟨-, -, hconflicts, -, -⟩ := phases_keep_to_their_own mayThrow roots
  obtain ⟨s, hd, -, -, hevaluations, -⟩ := hstops f 1 hf hcount
  refine ⟨⟨f, s, hf, hcount, fun h => ?_, hd, hevaluations⟩, g, hg, hcount', (hconflicts g 1 hg hcount').1⟩
  obtain ⟨f', count, hf', hcount'⟩ := htold.1 h
  rw [hf] at hf'
  cases hf'
  rw [hcount] at hcount'
  cases hcount'

end Checker

end Independence
