import Independence.Proofs.Analysis.Concord
import Independence.Proofs.Analysis.Phases
/-!
# Runs in concord

Verification reads the table and the model and nothing else, but for the names in what it reports. So two runs in concord
end alike: with one table, and with counterparts of what they found.
-/

namespace Independence

variable {s s' : Session Model} {r r' : Reporter} {roots roots' : List Request} {c c' : Checker Model}

/-! ## Names of conflicts -/

/-- The conflict with another name for the writer. -/
def Conflict.named (nameOf : CallableId → String) (c : Conflict) : Conflict := { c with name := nameOf c.writer }

theorem Conflict.firstAtEach_named (nameOf : CallableId → String) (cs : List Conflict) :
    firstAtEach (cs.map (named nameOf)) = (firstAtEach cs).map (named nameOf) := by
  induction cs with
  | nil => rfl
  | cons c cs ih =>
    simp only [List.map_cons, firstAtEach, ih, List.filter_map]
    rfl

/-- The names decide about nothing but themselves. -/
theorem Table.conflicts_named (t : Table) (nameOf nameOf' : CallableId → String) (observed : List Accesses) :
    t.conflicts nameOf' observed = (t.conflicts nameOf observed).map (Conflict.named nameOf') := by
  unfold conflicts
  rw [← Conflict.firstAtEach_named, List.map_flatMap]
  congr 1
  refine congrArg (List.flatMap · t.records) (funext fun writer => ?_)
  rw [List.map_flatMap]
  refine congrArg (List.flatMap · (t.records.zip observed)) (funext fun ⟨reader, accesses⟩ => ?_)
  by_cases hconcerns : t.concerns writer reader = true
  · simp only [if_pos hconcerns, List.map_map]
    rfl
  · simp only [if_neg hconcerns, List.map_nil]

/-- The two lists of conflicts differ in the names at most, and in nothing if the names are the `same`. -/
def Conflict.Renamed (same : Prop) (cs cs' : List Conflict) : Prop :=
  (∃ nameOf, cs' = cs.map (named nameOf)) ∧ (same → cs' = cs)

/-- With the same names the same conflicts are found. -/
theorem Conflict.Renamed.eq_of_rel {same : Prop} {x x' : Option (List Conflict)} (h : Option.Rel (Renamed same) x x')
    (hsame : same) : x' = x := by
  cases h with
  | some h => rw [h.2 hsame]
  | none => rfl

/-- Discovery and verification together, before conflicts are reported. -/
def Analysis.find (setup : Setup) : Analysis Model (List Conflict) := do
  discover setup
  verify setup

namespace Concord

variable {C : Concord}

/-! ## Many reports -/

theorem reporters_reportAll {ds ds' : List Diagnostic} (h : C.reporters r r')
    (hds : List.Forall₂ (Diagnostic.Counterpart C.same) ds ds') : C.reporters (r.reportAll ds) (r'.reportAll ds') := by
  induction hds generalizing r r' with
  | nil => exact h
  | cons hd _ ih => exact ih (C.reported h hd).2

theorem Matches.reportAll {ds ds' : List Diagnostic} (h : C.Matches s s')
    (hds : List.Forall₂ (Diagnostic.Counterpart C.same) ds ds') : C.Matches (s.reportAll ds) (s'.reportAll ds') :=
  ⟨h.evaluator, h.traversal, h.placeholders, h.table, h.visits, reporters_reportAll h.reporters hds⟩

theorem counterparts_abruptDiagnostics (t : Table) {nameOf nameOf' : CallableId → String}
    (hname : C.same → nameOf' = nameOf) :
    List.Forall₂ (Diagnostic.Counterpart C.same) (t.abruptDiagnostics nameOf) (t.abruptDiagnostics nameOf') := by
  unfold Table.abruptDiagnostics
  induction t.records with
  | nil => exact .nil
  | cons r rs ih =>
    simp only [List.filterMap_cons, Record.abruptDiagnostic?]
    cases r.effects.result with
    | abrupt a => exact .cons (.fatal _ _ fun h => by rw [hname h]) ih
    | normal _ => exact ih
    | possiblyAbrupt _ _ => exact ih

theorem counterparts_conflicts {cs cs' : List Conflict} (h : Conflict.Renamed C.same cs cs') :
    List.Forall₂ (Diagnostic.Counterpart C.same) (cs.map Conflict.diagnostic) (cs'.map Conflict.diagnostic) := by
  obtain ⟨⟨nameOf, rfl⟩, hsame⟩ := h
  rw [List.map_map, List.forall₂_map_left_iff, List.forall₂_map_right_iff, List.forall₂_same]
  refine fun c hc => ⟨rfl, rfl, rfl, fun h => ?_⟩
  have hc' := List.map_inj_left.1 ((hsame h).trans (List.map_id cs).symm) c hc
  exact congrArg Conflict.diagnostic hc'

/-! ## Verification -/

theorem checkCompletions_tracks (hs : C.Matches s s') :
    C.Tracks (Analysis.checkCompletions C.setup) (Analysis.checkCompletions C.setup') (fun _ _ => True) s s' := by
  unfold Tracks
  rw [Analysis.checkCompletions_eq, Analysis.checkCompletions_eq, hs.table, hs.evaluator]
  by_cases hcount : 0 < s.table.abruptCount
  · rw [if_pos hcount, if_pos hcount]
    exact .inr ⟨.refl _, hs.reportAll (counterparts_abruptDiagnostics s.table
      fun h => funext fun f => C.resolve_eq h s.evaluator f)⟩
  · rw [if_neg hcount, if_neg hcount]
    exact ⟨trivial, hs⟩

theorem replay_tracks (q : Record) (hs : C.Matches s s') :
    C.Tracks (Analysis.replay C.setup q) (Analysis.replay C.setup' q) Eq s s' := by
  refine Tracks.get ?_
  simp only [hs.placeholders, hs.table, hs.evaluator]
  split
  · exact Tracks.throw ⟨rfl, fun h => by rw [C.resolve_eq h]⟩ hs
  · exact Tracks.set (Tracks.pure rfl ⟨rfl, hs.traversal, rfl, rfl, hs.visits, hs.reporters⟩)

/-- The same conflicts are found but for the names in them. -/
theorem verify_tracks (hs : C.Matches s s') :
    C.Tracks (Analysis.verify C.setup) (Analysis.verify C.setup') (Conflict.Renamed C.same) s s' := by
  refine Tracks.bind (checkCompletions_tracks hs) fun _ _ t t' _ ht => ?_
  refine Tracks.bind (Q := Eq) (Tracks.get ?_) ?_
  · rw [ht.table]
    exact Tracks.mapM (fun q _ u u' hu => replay_tracks q hu) ht
  · rintro observed _ u u' rfl hu
    refine Tracks.get (Tracks.pure ⟨⟨C.setup'.names.resolve u.evaluator, ?_⟩, fun h => ?_⟩ hu)
    · rw [hu.table, hu.evaluator]
      exact u.table.conflicts_named _ _ observed
    · rw [hu.table, hu.evaluator, funext fun f => C.resolve_eq h u.evaluator f]

theorem reportConflicts_tracks {cs cs' : List Conflict} (h : Conflict.Renamed C.same cs cs') (hs : C.Matches s s') :
    C.Tracks (Analysis.reportConflicts cs) (Analysis.reportConflicts cs') Eq s s' := by
  unfold Tracks
  rw [Analysis.reportConflicts_eq, Analysis.reportConflicts_eq]
  refine ⟨?_, hs.reportAll (counterparts_conflicts h)⟩
  obtain ⟨⟨nameOf, rfl⟩, -⟩ := h
  rw [List.isEmpty_map]

theorem find_tracks (hdrain : C.Tracks (Analysis.drain C.setup s.queue) (Analysis.drain C.setup' s'.queue)
    (fun _ _ => True) s s') :
    C.Tracks (Analysis.find C.setup) (Analysis.find C.setup') (Conflict.Renamed C.same) s s' :=
  Tracks.bind (discover_tracks hdrain) fun _ _ _ _ _ ht => verify_tracks ht

theorem analyse_tracks (hdrain : C.Tracks (Analysis.drain C.setup s.queue) (Analysis.drain C.setup' s'.queue)
    (fun _ _ => True) s s') :
    C.Tracks (Analysis.analyse C.setup) (Analysis.analyse C.setup') (fun _ _ => True) s s' := by
  refine Tracks.bind (discover_tracks hdrain) fun _ _ t t' _ ht => ?_
  refine Tracks.bind (verify_tracks ht) fun cs cs' u u' hcs hu => ?_
  refine Tracks.bind (reportConflicts_tracks hcs hu) ?_
  rintro decision _ v v' rfl hv
  cases decision with
  | abort =>
    obtain ⟨⟨nameOf, rfl⟩, -⟩ := hcs
    rw [List.length_map]
    exact Tracks.throw (.refl _) hv
  | proceed => exact Tracks.pure trivial hv

end Concord

/-! ## Runs -/

/-- The conflicts that a run finds, if it gets as far as the check of conflicts. -/
def Checker.conflicts? (c : Checker Model) (roots : List Request) : Option (List Conflict) :=
  match Analysis.find c.setup (c.session roots) with
  | .ok conflicts _ => some conflicts
  | .error _ _ => none

/-- A run that gets as far as the check ends with the reports of these conflicts. -/
theorem Checker.ReachesCheck.conflicts (h : Checker.ReachesCheck c roots) : ∃ (conflicts : List Conflict)
    (t : Session Model),
    c.conflicts? roots = some conflicts ∧ c.finished roots = t.reportAll (conflicts.map Conflict.diagnostic) := by
  obtain ⟨s, t, conflicts, hd, -, hv, hfinished⟩ := h.verified
  refine ⟨conflicts, t, ?_, hfinished⟩
  simp only [conflicts?, Analysis.find, Bind.bind, EStateM.bind, hd, hv]

/-- Both runs succeed with one table, or they fail with counterparts. -/
def Checker.Concur (same : Prop) : Except FailedRun Verified → Except FailedRun Verified → Prop
  | .ok v, .ok v' => v'.table = v.table
  | .error f, .error f' => f.failure.Counterpart same f'.failure
  | .ok _, .error _ => False
  | .error _, .ok _ => False

namespace Concord

variable {C : Concord} (hsetup : C.setup = c.setup) (hsetup' : C.setup' = c'.setup)
  (hdrain : C.Tracks (Analysis.drain C.setup roots) (Analysis.drain C.setup' roots') (fun _ _ => True) (c.session roots)
    (c'.session roots'))
include hsetup hsetup' hdrain

/-- Where the first run must not give up, both end alike. -/
theorem concur (hgives : ¬ C.gives) :
    Checker.Concur C.same (c.run roots).1 (c'.run roots').1 ∧ C.Matches (c.finished roots) (c'.finished roots') := by
  have h : C.Tracks (Analysis.analyse C.setup) (Analysis.analyse C.setup') (fun _ _ => True) (c.session roots)
    (c'.session roots') := analyse_tracks hdrain
  rw [hsetup, hsetup'] at h
  unfold Tracks at h
  cases hx : Analysis.analyse c.setup (c.session roots) with
  | ok _ t =>
    cases hx' : Analysis.analyse c'.setup (c'.session roots') with
    | ok _ t' =>
      rw [hx, hx'] at h
      rw [(Checker.run_of_ok hx).1, (Checker.run_of_ok hx).2, (Checker.run_of_ok hx').1, (Checker.run_of_ok hx').2]
      exact ⟨h.2.table, h.2⟩
    | error e' t' =>
      rw [hx, hx'] at h
      exact h.elim
  | error e t =>
    cases hx' : Analysis.analyse c'.setup (c'.session roots') with
    | ok _ t' =>
      rw [hx, hx'] at h
      exact absurd h hgives
    | error e' t' =>
      rw [hx, hx'] at h
      obtain ⟨he, ht⟩ := h.resolve_left hgives
      rw [(Checker.run_of_error hx).1, (Checker.run_of_error hx).2, (Checker.run_of_error hx').1,
        (Checker.run_of_error hx').2]
      exact ⟨he, ht⟩

/-- They find the same conflicts, but for names. -/
theorem conflicts_renamed (hgives : ¬ C.gives) :
    Option.Rel (Conflict.Renamed C.same) (c.conflicts? roots) (c'.conflicts? roots') := by
  have h : C.Tracks (Analysis.find C.setup) (Analysis.find C.setup') (Conflict.Renamed C.same) (c.session roots)
    (c'.session roots') := find_tracks hdrain
  rw [hsetup, hsetup'] at h
  unfold Tracks at h
  unfold Checker.conflicts?
  split at h
  · next hx hx' =>
    rw [hx, hx']
    exact .some h.1
  · next hx hx' =>
    rw [hx, hx']
    exact .none
  · exact absurd h hgives
  · exact h.elim

/-- Where the first run may give up but does not, the second one succeeds, too. -/
theorem succeeds {v : Verified} (hrun : (c.run roots).1 = .ok v) :
    (∃ v', (c'.run roots').1 = .ok v') ∧ C.Matches (c.finished roots) (c'.finished roots') := by
  have h : C.Tracks (Analysis.analyse C.setup) (Analysis.analyse C.setup') (fun _ _ => True) (c.session roots)
    (c'.session roots') := analyse_tracks hdrain
  rw [hsetup, hsetup'] at h
  cases hx : Analysis.analyse c.setup (c.session roots) with
  | ok _ t =>
    obtain ⟨_, t', hx', -, ht⟩ := h.exists_ok hx
    rw [(Checker.run_of_ok hx).2, (Checker.run_of_ok hx').2]
    exact ⟨⟨_, (Checker.run_of_ok hx').1⟩, ht⟩
  | error e t =>
    rw [(Checker.run_of_error hx).1] at hrun
    cases hrun

end Concord

end Independence
