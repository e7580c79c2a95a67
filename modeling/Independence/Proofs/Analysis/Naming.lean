import Independence.Proofs.Analysis.Outcomes
import Independence.Proofs.Analysis.Extension
/-!
# Names are text

Names go into messages and nowhere else. A reporter compares messages to tell whether a report is a repetition, but a
repetition is decided on like any other report. So other names, also ones that several callables share, change no step of
an analysis: the same candidates are captured, the same requests are put aside and the same accesses are in conflict.
-/

namespace Independence

variable {r r' : Reporter}

/-- The reports are of one problem at one place, and they are decided alike. -/
structure Report.Retold (p p' : Report) : Prop where
  diagnostic : p.diagnostic.Counterpart False p'.diagnostic
  decision : p'.decision = p.decision

/-- Nobody is asked, the policy is the same, and the same was reported in other words. -/
structure Reporter.Retold (r r' : Reporter) : Prop where
  policy : r'.policy = r.policy
  unhandled : r.handler = none ∧ r'.handler = none
  reports : List.Forall₂ Report.Retold r.reports r'.reports

theorem Reporter.Retold.report (h : Reporter.Retold r r') {d d' : Diagnostic} (hd : d.Counterpart False d') :
    (r'.report d').1 = (r.report d).1 ∧ Reporter.Retold (r.report d).2 (r'.report d').2 := by
  have hanswer : (r'.report d').1 = (r.report d).1 := by
    rw [answer_of_unhandled h.unhandled.1, answer_of_unhandled h.unhandled.2, h.policy, hd.severity]
  refine ⟨hanswer, ?_, ?_, ?_⟩
  · rw [policy_report, policy_report, h.policy]
  · rw [handler_report, handler_report]
    exact h.unhandled
  · rw [reports_report, reports_report]
    refine .cons ⟨?_, hanswer⟩ h.reports
    rw [diagnostic_judge, diagnostic_judge]
    exact hd

/-- The concord of two analyses with different names. -/
def Concord.renaming (names names' : Names) (limit : Nat) : Concord :=
  noting ⟨names, limit⟩ ⟨names', limit⟩ False Reporter.Retold (.inl rfl) <| by
    intro r r' d d' hr hd
    obtain ⟨hanswer, hnext⟩ := hr.report ⟨hd.severity, hd.code, hd.location, False.elim⟩
    exact ⟨.inl hanswer, hnext⟩

/-- The conflict without the name. -/
def Conflict.place (c : Conflict) : Location × CallableId × CallableId := (c.location, c.writer, c.reader)

theorem Conflict.Renamed.map_place {same : Prop} {cs cs' : List Conflict} (h : Renamed same cs cs') :
    cs'.map place = cs.map place := by
  obtain ⟨⟨nameOf, rfl⟩, -⟩ := h
  rw [List.map_map]
  rfl

theorem Conflict.Renamed.map_place_of_rel {same : Prop} {x x' : Option (List Conflict)}
    (h : Option.Rel (Renamed same) x x') : x'.map (·.map place) = x.map (·.map place) := by
  cases h with
  | some h => exact congrArg some h.map_place
  | none => rfl

namespace Checker

/-- Other names, whatever they are, change nothing but text, if nobody is asked. The run succeeds with the same table, or
it fails with the same failure but for the name in it; the same becomes of every request, the conflicts are at the same
places between the same candidates, and what is reported differs in its words at most. -/
theorem names_are_only_text (c : Checker Model) (roots : List Request) (names : Names) (hh : c.handler = none) :
    let renamed : Checker Model := { c with names }
    Concur (names = c.names) (c.run roots).1 (renamed.run roots).1 ∧
      (renamed.finished roots).table = (c.finished roots).table ∧
      (renamed.finished roots).visits = (c.finished roots).visits ∧
      (renamed.conflicts? roots).map (·.map Conflict.place) = (c.conflicts? roots).map (·.map Conflict.place) ∧
      List.Forall₂ Report.Retold (c.finished roots).reporter.reports (renamed.finished roots).reporter.reports := by
  intro renamed
  have hstart : (Concord.renaming c.names names c.settings.maxNestingDepth).Matches (c.session roots)
      (renamed.session roots) := ⟨rfl, rfl, rfl, rfl, rfl, ⟨rfl, ⟨hh, hh⟩, .nil⟩⟩
  have hdrain := Concord.drain_tracks roots hstart
  obtain ⟨hconcur, hmatches⟩ := Concord.concur rfl rfl hdrain id
  have hconflicts := Concord.conflicts_renamed rfl rfl hdrain id
  exact ⟨hconcur, hmatches.table, hmatches.visits.symm, Conflict.Renamed.map_place_of_rel hconflicts,
    hmatches.reporters.reports⟩

/-- The second function requested before the first one conflicts with it, also where all functions have one name. -/
theorem names_are_only_text_sample :
    let roots : List Request := [.ofCallable ⟨1⟩, .ofCallable ⟨0⟩]
    let renamed : Checker Model := { lenientSample with names := .ofList [(⟨0⟩, "f"), (⟨1⟩, "f"), (⟨2⟩, "f")] }
    ∃ conflicts conflicts', lenientSample.conflicts? roots = some conflicts ∧ conflicts ≠ [] ∧
      renamed.conflicts? roots = some conflicts' ∧ conflicts'.map Conflict.place = conflicts.map Conflict.place ∧
      (renamed.finished roots).table = (lenientSample.finished roots).table := by
  intro roots renamed
  have hsome : (lenientSample.conflicts? roots).any (fun conflicts => !conflicts.isEmpty) = true := by decide +kernel
  obtain ⟨-, htable, -, hplaces, -⟩ := names_are_only_text lenientSample roots
    (.ofList [(⟨0⟩, "f"), (⟨1⟩, "f"), (⟨2⟩, "f")]) rfl
  obtain ⟨conflicts, hconflicts, hne⟩ := (Option.any_eq_true _ _).1 hsome
  rw [hconflicts] at hplaces
  obtain ⟨conflicts', hconflicts', hplace⟩ := Option.map_eq_some_iff.1 hplaces
  exact ⟨conflicts, conflicts', hconflicts, by simpa using hne, hconflicts', hplace, htable⟩

end Checker

end Independence
