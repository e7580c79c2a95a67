import Independence.Proofs.Analysis.Outcomes
import Independence.Proofs.Analysis.Disclosure
/-!
# Laxer settings

Settings decide where an analysis stops and about nothing else. Laxer ones let it pass wherever stricter ones do, so what
succeeds under the stricter ones succeeds under the laxer ones, too, with the same table and the same warnings.
-/

namespace Independence

variable {strict lax : Settings} {r r' : Reporter} {names : Names}

/-- The first settings allow whatever the second ones allow. -/
structure Settings.AsLaxAs (lax strict : Settings) : Prop where
  nesting : strict.maxNestingDepth ≤ lax.maxNestingDepth
  warnings : lax.warningsAsErrors = true → strict.warningsAsErrors = true
  errors : strict.recoverErrors = true → lax.recoverErrors = true

/-- Where the policies differ, the stricter one aborts. -/
theorem Settings.AsLaxAs.decide (h : lax.AsLaxAs strict) (severity : Severity) :
    lax.policy.decide severity = strict.policy.decide severity ∨ strict.policy.decide severity = .abort := by
  cases severity with
  | fatal => exact .inr rfl
  | warning =>
    by_cases hstrict : strict.warningsAsErrors = true
    · exact .inr (if_pos hstrict)
    · have hlax : ¬ lax.warningsAsErrors = true := fun hlax => hstrict (h.warnings hlax)
      exact .inl ((if_neg hlax).trans (if_neg hstrict).symm)
  | recoverable =>
    by_cases hstrict : strict.recoverErrors = true
    · exact .inl ((if_pos (h.errors hstrict)).trans (if_pos hstrict).symm)
    · exact .inr (if_neg hstrict)

/-- Nobody is asked, the two decide by these settings, and they keep the same. -/
structure Reporter.Under (strict lax : Settings) (r r' : Reporter) : Prop where
  policy : r.policy = strict.policy
  policy' : r'.policy = lax.policy
  unhandled : r.handler = none ∧ r'.handler = none
  kept : r'.diagnostics = r.diagnostics

theorem Reporter.Under.report (h : Under strict lax r r') (d : Diagnostic) :
    Under strict lax (r.report d).2 (r'.report d).2 where
  policy := by rw [policy_report, h.policy]
  policy' := by rw [policy_report, h.policy']
  unhandled := by
    rw [handler_report, handler_report]
    exact h.unhandled
  kept := by
    simp only [Reporter.report, keep, h.kept]
    split
    · exact h.kept
    · rfl

/-- They answer alike, but that the first one may abort where the second one does not. -/
theorem Reporter.Under.answer (h : lax.AsLaxAs strict) (hr : Under strict lax r r') (d : Diagnostic) :
    (r'.report d).1 = (r.report d).1 ∨ (r.report d).1 = .abort := by
  rw [answer_of_unhandled hr.unhandled.1, answer_of_unhandled hr.unhandled.2, hr.policy, hr.policy']
  exact h.decide d.severity

/-- The concord of two analyses under different settings. The one under the stricter settings may give up. -/
def Concord.yielding (names : Names) (h : lax.AsLaxAs strict) : Concord :=
  noting ⟨names, strict.maxNestingDepth⟩ ⟨names, lax.maxNestingDepth⟩ True (Reporter.Under strict lax)
    (.inr ⟨trivial, h.nesting⟩) <| by
      intro r r' d d' hr hd
      obtain rfl := hd.equal rfl
      exact ⟨(hr.answer h d').imp_right fun habort => ⟨trivial, habort⟩, hr.report d'⟩

namespace Checker

/-- What succeeds goes on to succeed under laxer settings, if nobody is asked: with the same table and warnings. -/
theorem stricter_settings_only_reject_more (c : Checker Model) (roots : List Request) (lax : Settings) {v : Verified}
    (hh : c.handler = none) (hlax : lax.AsLaxAs c.settings) (hrun : (c.run roots).1 = .ok v) :
    ({ c with settings := lax }.run roots).1 = .ok v := by
  let laxer : Checker Model := { c with settings := lax }
  have hstart : (Concord.yielding c.names hlax).Matches (c.session roots) (laxer.session roots) :=
    ⟨rfl, rfl, rfl, rfl, rfl, ⟨rfl, rfl, ⟨hh, hh⟩, rfl⟩⟩
  obtain ⟨⟨v', hrun'⟩, hmatches⟩ := Concord.succeeds rfl rfl (Concord.drain_tracks roots hstart) hrun
  rw [hrun', eq_of_run_ok hrun, eq_of_run_ok hrun', hmatches.table, Reporter.warnings, Reporter.warnings,
    hmatches.reporters.kept]

/-- A function that writes to nothing but an object of its own is let pass by settings as strict as can be, and so it is
by others. -/
theorem stricter_settings_only_reject_more_sample :
    let strict : Checker Model := { tidySample with settings := { maxNestingDepth := 1, warningsAsErrors := true } }
    ∃ v, (strict.run [.ofCallable ⟨0⟩]).1 = .ok v ∧
      ({ strict with settings := { recoverErrors := true } }.run [.ofCallable ⟨0⟩]).1 = .ok v := by
  intro strict
  have hok : (strict.run [.ofCallable ⟨0⟩]).1.toOption.any (fun _ => true) = true := by decide +kernel
  obtain ⟨v, hv, -⟩ := exists_ok_of_any hok
  exact ⟨v, hv, stricter_settings_only_reject_more strict _ { recoverErrors := true } rfl ⟨by decide, nofun, nofun⟩ hv⟩

end Checker

end Independence
