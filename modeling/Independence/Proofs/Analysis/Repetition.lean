import Independence.Proofs.Analysis.Lockstep
import Independence.Proofs.Analysis.Soundness
import Independence.Proofs.Analysis.Verdict
/-!
# Running again

A run rolls everything back, but it leaves its traces: the objects that it created were handed out, and nobody takes
their numbers back. A second run of the same roots takes the course of the first one all the same. It fails with the same
failure or ends with the same table, and it reports the same.
-/

namespace Independence

variable {m₀ : Model} {k s s' t : Session Model} {setup : Setup}

open Session (Beside)

namespace Analysis

/-! ## Discovery and completions -/

/-- From nothing accepted, discovery ends alike. -/
theorem discover_alike (setup : Setup) (hw : m₀.WellFormed) (hk : k.Accounted) (hempty : k.visits = [])
    (hs : Amid m₀ [] [] s) (ha : s.Accounted) (hb : Beside m₀ k [] s s') (hqueue : s'.queue = s.queue) :
    Alike (discover setup) (discover setup) s s' (fun _ t _ t' => Amid m₀ [] [] t ∧ Beside m₀ k [] t t') k.BothTold := by
  obtain ⟨hok, herror⟩ := drain_alike setup hw hk hempty s.queue [] hs ha hb
  rw [List.append_nil] at hok herror
  have hdrain : Alike (drain setup s.queue) (drain setup s.queue) s s' (fun _ t _ t' => Beside m₀ k [] t t')
      k.BothTold :=
    .intro (fun _ t hx => let ⟨t', ht, hx'⟩ := hok t hx; ⟨(), t', hx', ht⟩) herror
  refine Alike.get ?_
  simp only [hqueue]
  refine Alike.bind (hdrain.and_left (drain_ends hw setup s.queue hs)) ?_
  rintro _ t _ t' ⟨ht, htb⟩
  refine Alike.get ?_
  have hunwound : t.traversal.isUnwound = true := by simp [Traversal.isUnwound, ht.frames]
  rw [htb.traversal, Traversal.isUnwound_moved, hunwound]
  exact Alike.pure ⟨ht, htb⟩

theorem reportAbrupt_alike {r r' : Record} (hr : r.Agrees r') (hb : Beside m₀ k [] s s')
    (hfunctions : s'.evaluator.functions = s.evaluator.functions) :
    Alike (reportAbrupt setup r) (reportAbrupt setup r') s s'
      (fun a t a' t' => a' = a ∧ Beside m₀ k [] t t' ∧ t'.evaluator.functions = t.evaluator.functions)
      k.BothTold := by
  have howner : r'.owner = r.owner := congrArg Candidate.callable hr.candidate
  unfold reportAbrupt
  rw [hr.effects.result]
  cases r.effects.result with
  | abrupt a =>
    refine Alike.get ?_
    simp only [setup.names.resolve_congr hfunctions, howner]
    obtain ⟨hanswer, hnext⟩ := hb.reporter.report (abruptDiagnostic (setup.names.resolve s.evaluator r.owner) r a)
    have hsame : ∀ name, abruptDiagnostic name r' a = abruptDiagnostic name r a := fun name => by
      rw [abruptDiagnostic, abruptDiagnostic, hr.signature]
    rw [hsame]
    exact ⟨rfl, hb.of_eq rfl rfl rfl rfl rfl rfl rfl rfl hnext, hfunctions⟩
  | _ => exact Alike.pure ⟨rfl, hb, hfunctions⟩

/-- Completions are looked at alike. -/
theorem checkCompletions_alike (setup : Setup) (hw : m₀.WellFormed) (hk : k.Accounted) (hempty : k.visits = [])
    (hs : Amid m₀ [] [] s) (hb : Beside m₀ k [] s s') :
    Alike (checkCompletions setup) (checkCompletions setup) s s' (fun _ t _ t' => Beside m₀ k [] t t') k.BothTold := by
  have hfunctions := hb.under.functions.trans hs.discovering.under.functions.symm
  have hrecords : s'.table.records = s.table.records.map (k.place m₀) := by
    rw [hb.records, hk.records_eq_nil hempty, List.nil_append]
  refine Alike.get ?_
  simp only [hrecords]
  refine Alike.bind (Alike.mapM
    (I := fun t t' => Beside m₀ k [] t t' ∧ t'.evaluator.functions = t.evaluator.functions)
    (fun r hr t t' ht => reportAbrupt_alike (hs.discovering.corresponds_place hw hr k).toAgrees ht.1 ht.2)
    ⟨hb, hfunctions⟩) ?_
  rintro abrupt t _ t' ⟨rfl, ht, -⟩
  split
  · exact Alike.throw ht.reporter
  · exact Alike.pure ht

end Analysis

namespace Checker

variable {c : Checker Model} {roots : List Request}

/-! ## Two runs -/

section Again
variable (c : Checker Model) (roots : List Request)

/-- A second run begins idle, because the first one was rolled back. -/
theorem idle_again (hh : c.handler = none) : c.Idle ((c.after (c.finished roots)).session roots) where
  amid := ⟨rfl, (Discovering.start _).later ((Analysis.analyse_restores c.setup).final (c.session roots))⟩
  accounted := .start _ _ _
  pending := rfl
  policy := rfl
  handler := hh

variable (hw : c.evaluator.WellFormed) (hh : c.handler = none)
include hw hh

/-- Both runs get as far as the check, with corresponding records, or stop with the same failure. -/
theorem examined_again : Analysis.Alike (do Analysis.discover c.setup; Analysis.checkCompletions c.setup)
    (do Analysis.discover c.setup; Analysis.checkCompletions c.setup) (c.session roots)
    ((c.after (c.finished roots)).session roots)
    (fun _ t _ t' => Beside c.evaluator ((c.after (c.finished roots)).session roots) [] t t')
    ((c.after (c.finished roots)).session roots).BothTold :=
  Analysis.Alike.bind (Analysis.discover_alike c.setup hw (idle_again c roots hh).accounted rfl
    (idle_session hh roots).amid (idle_session hh roots).accounted ((idle_again c roots hh).beside hh roots) rfl)
      fun _ _ _ _ ht => Analysis.checkCompletions_alike c.setup hw (idle_again c roots hh).accounted rfl ht.1 ht.2

/-- Where both get as far as the check, the verdicts are on the same conflicts. -/
theorem verdict_again {t t' : Session Model} (hd : c.Discovered roots t)
    (hd' : (c.after (c.finished roots)).Discovered roots t')
    (ht : Beside c.evaluator ((c.after (c.finished roots)).session roots) [] t t') :
    ∃ conflicts, c.Verdict roots t conflicts ∧ (c.after (c.finished roots)).Verdict roots t' conflicts := by
  have hdiscovering := (hd.amid hw).discovering
  have hdiscovering' :=
    ((Analysis.discover_keeps hw c.setup (idle_again c roots hh).amid).of_ok hd'.discover).discovering
  obtain ⟨seen, hseen⟩ := Analysis.exists_seenIn hw hdiscovering
  obtain ⟨seen', hseen'⟩ := Analysis.exists_seenIn hw hdiscovering'
  have hsame := Analysis.allConflicts_map hw hdiscovering hdiscovering' hseen hseen' (c.names.resolve t.evaluator)
    ht.records fun r hr => hdiscovering.corresponds_place hw hr _
  have hnames : c.names.resolve t'.evaluator = c.names.resolve t.evaluator :=
    c.names.resolve_congr (hdiscovering'.under.functions.trans hdiscovering.under.functions.symm)
  refine ⟨_, hd.verdict (hseen.steady hdiscovering), ?_⟩
  rw [← hsame, ← hnames]
  exact hd'.verdict (hseen'.steady hdiscovering')

end Again

/-- Without a handler two runs of the same roots, one after the other on the same checker, agree: both succeed or both
fail, with the same failure and the same diagnostics, and the tables differ in the objects created only. -/
theorem run_again (c : Checker Model) (roots : List Request) (hw : c.evaluator.WellFormed) (hh : c.handler = none) :
    let again := (c.run roots).2
    (again.finished roots).reporter.diagnostics = (c.finished roots).reporter.diagnostics ∧
    match (c.run roots).1, (again.run roots).1 with
    | .ok v, .ok v' => v'.warnings = v.warnings ∧
        List.Forall₂ (fun r r' : Record => r.Agrees r' ∧ r'.baseline = r.baseline) v.table.records v'.table.records
    | .error f, .error f' => f' = f
    | .ok _, .error _ | .error _, .ok _ => False := by
  rw [run_leaves]
  intro again
  have hexamined := examined_again c roots hw hh
  cases hx : (do Analysis.discover c.setup; Analysis.checkCompletions c.setup) (c.session roots) with
  | error x t =>
    obtain ⟨t', hx', htold⟩ := hexamined.of_error hx
    obtain ⟨hrun, hfinished⟩ := run_of_error (analyse_of_error hx)
    obtain ⟨hrun', hfinished'⟩ := run_of_error (c := again) (analyse_of_error hx')
    have hdiagnostics : t'.reporter.diagnostics = t.reporter.diagnostics := htold.same rfl
    rw [hrun, hrun', hfinished, hfinished', hdiagnostics]
    exact ⟨rfl, rfl⟩
  | ok _ t =>
    obtain ⟨_, t', hx', ht⟩ := hexamined.of_ok hx
    have hd : c.Discovered roots t := .of_ok hx
    obtain ⟨conflicts, hverdict, hverdict'⟩ := verdict_again c roots hw hh hd (.of_ok hx') ht
    have hdiagnostics : (again.finished roots).reporter.diagnostics = (c.finished roots).reporter.diagnostics := by
      rw [hverdict.reporter, hverdict'.reporter]
      exact (ht.reporter.reportAll (conflicts.map Conflict.diagnostic)).same rfl
    refine ⟨hdiagnostics, ?_⟩
    rw [hverdict.result, hverdict'.result, hdiagnostics]
    cases conflicts.isEmpty with
    | false => rfl
    | true =>
      refine ⟨congrArg (List.filter fun d : Diagnostic => d.severity == .warning) hdiagnostics, ?_⟩
      have hrecords : t'.table.records = t.table.records.map ((again.session roots).place c.evaluator) := ht.records
      rw [hrecords, List.forall₂_map_right_iff, List.forall₂_same]
      exact fun r hr => ⟨((hd.amid hw).discovering.corresponds_place hw hr _).toAgrees, r.baseline.moved_zero⟩

/-- A second run on the sample captures the three functions again. -/
theorem run_again_sample :
    let roots : List Request := [.ofCallable ⟨0⟩, .ofCallable ⟨2⟩]
    ∃ v v' : Verified, (sample.run roots).1 = .ok v ∧ ((sample.run roots).2.run roots).1 = .ok v' ∧
      v.table.records.length = 3 ∧
      List.Forall₂ (fun r r' : Record => r.Agrees r' ∧ r'.baseline = r.baseline) v.table.records v'.table.records := by
  intro roots
  have hlength : (match (sample.run roots).1 with
      | .ok v => v.table.records.length == 3
      | .error _ => false) = true := by decide +kernel
  obtain ⟨-, hagain⟩ := run_again sample roots Model.wellFormed_sample rfl
  cases hok : (sample.run roots).1 with
  | error f =>
    rw [hok] at hlength
    cases hlength
  | ok v =>
    rw [hok] at hlength hagain
    cases hok' : ((sample.run roots).2.run roots).1 with
    | error f' =>
      rw [hok'] at hagain
      exact hagain.elim
    | ok v' =>
      rw [hok'] at hagain
      exact ⟨v, v', rfl, rfl, beq_iff_eq.1 hlength, hagain.2⟩

end Checker

end Independence
