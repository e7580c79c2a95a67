import Independence.Proofs.Analysis.Lockstep
import Independence.Proofs.Analysis.Soundness
import Independence.Proofs.Analysis.Verdict
/-!
# The order of the roots

As long as no callable is requested twice, what a root reveals is what it reveals alone: nothing that the roots before it
did is left committed, and no callable of theirs is met again. So every order of the roots captures the same candidates,
with other objects created. Since a conflict is between two records, wherever they are in the table, every order also
finds the same conflicts.
-/

namespace Independence.Checker

variable {c : Checker Model} {r : Request} {roots roots' : List Request} {s s' t t' : Session Model}

open Session (Beside)
open Analysis (process drain)

/-! ## One root alone -/

/-- The session in which the analysis of a single root ends. -/
def alone (c : Checker Model) (r : Request) : Session Model :=
  finalState (process c.setup c.setup.maxNesting r (c.session []))

/-- Alone the root is processed without a failure, and no callable is requested twice. -/
structure Lone (c : Checker Model) (r : Request) : Prop where
  succeeds : process c.setup c.setup.maxNesting r (c.session []) = .ok () (c.alone r)
  clean : ¬ (c.alone r).reporter.Told .doubleOptimization

/-- The two roots reveal different callables. -/
def Apart (c : Checker Model) (r q : Request) : Prop :=
  ∀ f, Accepted (c.alone r).visits f → ¬ Accepted (c.alone q).visits f

theorem Apart.symm {q : Request} (h : c.Apart r q) : c.Apart q r := fun f hq hr => h f hr hq

section Alone
variable (hw : c.evaluator.WellFormed) (hh : c.handler = none)
include hw hh

theorem Lone.idle (h : c.Lone r) : c.Idle (c.alone r) := (idle_session hh []).processed hw h.succeeds

/-- After others a root does what it does alone, unless it reveals a callable of theirs. -/
theorem Idle.together (hs : c.Idle s) (r : Request) : Analysis.Together s (process c.setup c.setup.maxNesting r)
    (process c.setup c.setup.maxNesting r) (c.session []) s fun _ u _ t => Beside c.evaluator s [] u t :=
  Analysis.process_together c.setup hw hs.accounted c.setup.maxNesting r (rfl : Analysis.Encloses [] [])
    (idle_session hh []).amid (idle_session hh []).accounted (hs.beside hh [])

/-- A root that is processed with no callable requested twice does what it does alone. -/
theorem Idle.lone_of_process (hs : c.Idle s) (hx : process c.setup c.setup.maxNesting r s = .ok () t)
    (hclean : ¬ t.reporter.Told .doubleOptimization) : c.Lone r ∧ Beside c.evaluator s [] (c.alone r) t := by
  rcases hs.together hw hh r with ⟨-, htold⟩ | halike
  · rw [hx] at htold
    exact absurd htold hclean
  · cases hr : process c.setup c.setup.maxNesting r (c.session []) with
    | error x u =>
      obtain ⟨t', hx', -⟩ := halike.of_error hr
      cases hx'.symm.trans hx
    | ok _ u =>
      obtain ⟨_, t', hx', hu⟩ := halike.of_ok hr
      cases hx'.symm.trans hx
      have halone : c.alone r = u := by rw [alone, hr]; rfl
      refine ⟨⟨halone ▸ hr, fun htold => hclean ?_⟩, halone ▸ hu⟩
      exact (hu.reporter.told _).2 (.inl (halone ▸ htold))

/-- A root whose callables were not requested before can be processed. -/
theorem Idle.process_of_lone (hs : c.Idle s) (hr : c.Lone r)
    (hnew : ∀ f, Accepted (c.alone r).visits f → ¬ Accepted s.visits f) :
    ∃ t, process c.setup c.setup.maxNesting r s = .ok () t ∧ Beside c.evaluator s [] (c.alone r) t := by
  rcases hs.together hw hh r with ⟨⟨f, hf, hbefore⟩, -⟩ | halike
  · exact absurd hbefore (hnew f hf)
  · obtain ⟨_, t, hx, ht⟩ := halike.of_ok hr.succeeds
    exact ⟨t, hx, ht⟩

end Alone

/-! ## One root after the other -/

/-- From `s` to `t` the roots were processed one after the other, each as if it were alone. -/
inductive Strung (c : Checker Model) : Session Model → List Request → Session Model → Prop
  | done (s : Session Model) : Strung c s [] s
  | step {s u t : Session Model} {r : Request} {roots : List Request} (lone : c.Lone r)
    (beside : Beside c.evaluator s [] (c.alone r) u) (rest : Strung c u roots t) : Strung c s (r :: roots) t

namespace Strung

theorem lone (h : c.Strung s roots t) : ∀ r ∈ roots, c.Lone r := by
  induction h with
  | done => exact fun _ hr => by cases hr
  | step hr _ _ ih => exact List.forall_mem_cons.2 ⟨hr, ih⟩

/-- What the roots reveal was not accepted before. -/
theorem new (h : c.Strung s roots t) : ∀ r ∈ roots, ∀ f, Accepted (c.alone r).visits f → ¬ Accepted s.visits f := by
  induction h with
  | done => exact fun _ hr => by cases hr
  | step _ hb _ ih =>
    refine List.forall_mem_cons.2 ⟨hb.apart, fun q hq f hf hs => ih q hq f hf ?_⟩
    rw [hb.visits]
    exact accepted_append.2 (.inr hs)

/-- No two of the roots reveal the same callable. -/
theorem pairwise (h : c.Strung s roots t) : roots.Pairwise c.Apart := by
  induction h with
  | done => exact .nil
  | step _ hb hrest ih =>
    refine List.pairwise_cons.2 ⟨fun q hq f hf hfq => hrest.new q hq f hfq ?_, ih⟩
    rw [hb.visits]
    exact accepted_append.2 (.inl hf)

/-- The records are those from before and those of each root alone, with their numbers moved up. -/
theorem mem_records (h : c.Strung s roots t) {x : Record} (hx : x ∈ t.table.records) :
    x ∈ s.table.records ∨ ∃ r ∈ roots, ∃ y ∈ (c.alone r).table.records, ∃ d n,
      x = y.moved (.shift c.evaluator.nextObject d) n := by
  induction h with
  | done => exact .inl hx
  | @step s u t r roots _ hb _ ih =>
    rcases ih hx with hu | ⟨q, hq, hy⟩
    · rw [hb.records] at hu
      rcases List.mem_append.1 hu with hs | hr
      · exact .inl hs
      · obtain ⟨y, hy, rfl⟩ := List.mem_map.1 hr
        exact .inr ⟨r, List.mem_cons_self, y, hy, _, _, rfl⟩
    · exact .inr ⟨q, List.mem_cons_of_mem r hq, hy⟩

theorem records_subset (h : c.Strung s roots t) : s.table.records ⊆ t.table.records := by
  induction h with
  | done => exact List.Subset.refl _
  | step _ hb _ ih =>
    refine List.Subset.trans ?_ ih
    rw [hb.records]
    exact List.subset_append_left _ _

theorem exists_record (h : c.Strung s roots t) (hr : r ∈ roots) {y : Record} (hy : y ∈ (c.alone r).table.records) :
    ∃ d n, y.moved (.shift c.evaluator.nextObject d) n ∈ t.table.records := by
  induction h with
  | done => cases hr
  | @step s u t q roots _ hb hrest ih =>
    rcases List.mem_cons.1 hr with rfl | hr
    · refine ⟨s.ahead c.evaluator, s.traversal.commits, hrest.records_subset ?_⟩
      rw [hb.records]
      exact List.mem_append_right _ (List.mem_map_of_mem hy)
    · exact ih hr

end Strung

section Strung
variable (hw : c.evaluator.WellFormed) (hh : c.handler = none)
include hw hh

/-- A queue that is processed with no callable requested twice is processed root by root. -/
theorem Idle.strung_of_drain (hs : c.Idle s) (hx : drain c.setup roots s = .ok () t)
    (hclean : ¬ t.reporter.Told .doubleOptimization) : c.Strung s roots t := by
  induction roots generalizing s with
  | nil =>
    cases hx
    exact .done _
  | cons r roots ih =>
    rw [Analysis.drain_cons, hs.depth, Nat.sub_zero] at hx
    cases hr : process c.setup c.setup.maxNesting r { s with queue := roots } with
    | error x u =>
      rw [hr] at hx
      cases hx
    | ok _ u =>
      rw [hr] at hx
      have hkept := (Analysis.drain_reports c.setup roots u).of_ok hx
      obtain ⟨hlone, hb⟩ := (hs.queued roots).lone_of_process hw hh hr fun htold => hclean (hkept.told _ htold)
      exact .step hlone hb.of_queue (ih ((hs.queued roots).processed hw hr) hx)

/-- Roots that reveal different callables can be processed one after the other. -/
theorem Idle.exists_drain (hs : c.Idle s) (hlone : ∀ r ∈ roots, c.Lone r) (hpair : roots.Pairwise c.Apart)
    (hnew : ∀ r ∈ roots, ∀ f, Accepted (c.alone r).visits f → ¬ Accepted s.visits f)
    (hclean : ¬ s.reporter.Told .doubleOptimization) :
    ∃ t, drain c.setup roots s = .ok () t ∧ ¬ t.reporter.Told .doubleOptimization := by
  induction roots generalizing s with
  | nil => exact ⟨s, rfl, hclean⟩
  | cons r roots ih =>
    obtain ⟨hr, hroots⟩ := List.forall_mem_cons.1 hlone
    obtain ⟨hapart, hpair⟩ := List.pairwise_cons.1 hpair
    obtain ⟨hrnew, hnew⟩ := List.forall_mem_cons.1 hnew
    obtain ⟨u, hu, hb⟩ := (hs.queued roots).process_of_lone hw hh hr hrnew
    have hvisits : u.visits = (c.alone r).visits ++ s.visits := hb.visits
    obtain ⟨t, ht, htclean⟩ := ih ((hs.queued roots).processed hw hu) hroots hpair
      (fun q hq f hf hfu => by
        rw [hvisits] at hfu
        exact (accepted_append.1 hfu).elim (fun hfr => hapart q hq f hfr hf) (hnew q hq f hf))
      fun htold => ((hb.reporter.told _).1 htold).elim hr.clean hclean
    refine ⟨t, ?_, htclean⟩
    rw [Analysis.drain_cons, hs.depth, Nat.sub_zero, hu]
    exact ht

/-- What the roots reveal corresponds to what they reveal in another order or among others. -/
theorem Strung.embeds (h : c.Strung s roots t) (h' : c.Strung s' roots' t') (hsub : roots ⊆ roots')
    (hempty : s.table.records = []) : t.table.Embeds c.evaluator t'.table := by
  intro x hx
  rcases h.mem_records hx with hs | ⟨r, hr, y, hy, d, n, rfl⟩
  · rw [hempty] at hs
    cases hs
  · obtain ⟨d', n', hmem⟩ := h'.exists_record (hsub hr) hy
    obtain ⟨above, k, k', hc, -⟩ := ((h.lone r hr).idle hw hh).amid.discovering.captured y hy
    exact ⟨_, hmem, hc.corresponds_moved hw d d' n n'⟩

/-! ## Another order -/

/-- Discovery in which no callable is requested twice succeeds in every other order of the roots as well. -/
theorem Discovered.permuted (hd : c.Discovered roots s) (hclean : ¬ s.reporter.Told .doubleOptimization)
    (hperm : roots.Perm roots') : ∃ t, c.Discovered roots' t ∧ ¬ t.reporter.Told .doubleOptimization ∧
      s.table.Embeds c.evaluator t.table ∧ t.table.Embeds c.evaluator s.table := by
  have hstrung := (idle_session hh roots).strung_of_drain hw hh hd.drain hclean
  obtain ⟨t, ht, htclean⟩ := (idle_session hh roots').exists_drain hw hh
    (fun r hr => hstrung.lone r (hperm.mem_iff.2 hr)) (hstrung.pairwise.perm hperm Apart.symm)
    (fun _ _ _ _ h => by obtain ⟨v, hv, -⟩ := h; cases hv) (Reporter.not_told_new _ _ _ _)
  have hstrung' := (idle_session hh roots').strung_of_drain hw hh ht htclean
  have hembeds := hstrung.embeds hw hh hstrung' hperm.subset rfl
  have hembeds' := hstrung'.embeds hw hh hstrung hperm.symm.subset rfl
  exact ⟨t, .of_drain hw ht (hembeds'.completes hd.completes), htclean, hembeds, hembeds'⟩

end Strung

/-- If a run gets as far as the check with no callable requested twice, so does the run of its roots in every other order.
It captures the same candidates, under the same parents and with the same effects up to the objects created, and it
reports conflicts at the same locations. -/
theorem root_order (c : Checker Model) {roots roots' : List Request} (hw : c.evaluator.WellFormed) (hh : c.handler = none)
    (hperm : roots.Perm roots') (h : c.ReachesCheck roots)
    (hclean : ¬ (c.finished roots).reporter.Told .doubleOptimization) :
    c.ReachesCheck roots' ∧ ¬ (c.finished roots').reporter.Told .doubleOptimization ∧
      (∀ r ∈ (c.finished roots).table.records, ∃ r' ∈ (c.finished roots').table.records, r.Agrees r') ∧
      (∀ r' ∈ (c.finished roots').table.records, ∃ r ∈ (c.finished roots).table.records, r'.Agrees r) ∧
      (∀ l, c.ConflictAt roots' l ↔ c.ConflictAt roots l) ∧
      ((∃ v, (c.run roots').1 = .ok v) ↔ ∃ v, (c.run roots).1 = .ok v) := by
  obtain ⟨s, hs⟩ := h.discovered
  obtain ⟨_, -, hverdict⟩ := hs.exists_verdict hw
  rw [hverdict.told_doubleOptimization_iff] at hclean
  obtain ⟨t, ht, htclean, hembeds, hembeds'⟩ := hs.permuted hw hh hclean hperm
  obtain ⟨hkept, hok⟩ := hs.compare hw ht hembeds
  obtain ⟨hkept', hok'⟩ := ht.compare hw hs hembeds'
  obtain ⟨_, -, hverdict'⟩ := ht.exists_verdict hw
  rw [hverdict.table, hverdict'.table, hverdict'.told_doubleOptimization_iff]
  refine ⟨hverdict'.reachesCheck, htclean, fun r hr => ?_, fun r hr => ?_, fun l => ⟨hkept' l, hkept l⟩, hok, hok'⟩
  · obtain ⟨r', hr', hrr⟩ := hembeds r hr
    exact ⟨r', hr', hrr.toAgrees⟩
  · obtain ⟨r', hr', hrr⟩ := hembeds' r hr
    exact ⟨r', hr', hrr.toAgrees⟩

/-- The sample with the third function before the first one, which reveals the second one. -/
theorem root_order_sample :
    let roots : List Request := [.ofCallable ⟨0⟩, .ofCallable ⟨2⟩]
    (∃ v, (sample.run roots).1 = .ok v) ∧ (∃ v, (sample.run roots.reverse).1 = .ok v) ∧
      (sample.finished roots).table.records.length = 3 ∧
      ∀ r ∈ (sample.finished roots).table.records, ∃ r' ∈ (sample.finished roots.reverse).table.records, r.Agrees r' := by
  intro roots
  obtain ⟨v, _, _, _, hrun, -⟩ := run_sample
  have hok : ∃ v, (sample.run roots).1 = .ok v := ⟨v, congrArg Prod.fst hrun⟩
  have hclean : ((sample.finished roots).reporter.diagnostics.all (·.code != .doubleOptimization)) = true := by
    decide +kernel
  have hlength : (sample.finished roots).table.records.length = 3 := by decide +kernel
  obtain ⟨-, -, hrecords, -, -, hverified⟩ := root_order sample Model.wellFormed_sample rfl roots.reverse_perm.symm
    (.inl hok) fun ⟨d, hd, hcode⟩ => by simpa [hcode] using List.all_eq_true.1 hclean d hd
  exact ⟨hok, hverified.2 hok, hlength, hrecords⟩

end Independence.Checker
