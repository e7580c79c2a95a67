import Independence.Proofs.Report.Reporter
/-!
# Reports in a row

To keep a diagnostic and to decide on it are two things. Of the reports in a row the first of each kind is kept; each of
them is decided on, also one that is not kept. A handler may have a state, which moves on whenever it is asked: it is asked
about everything that is not fatal, in order.
-/

namespace Independence

/-! ## Handlers with a state -/

/-- What a handler answers to a diagnostic in a state, and the state in which that leaves it. -/
abbrev StatefulHandler (τ : Type) := Diagnostic → τ → Option Decision × τ

namespace StatefulHandler

variable {τ : Type} (h : StatefulHandler τ)

/-- The state after the handler was asked about the diagnostics, the first one first. -/
def after (s : τ) (ds : List Diagnostic) : τ := ds.foldl (fun s d => (h d s).2) s

/-- Its answer to `d`, if it started in `s` and was asked about `before` since. -/
def answer (s : τ) (before : List Diagnostic) (d : Diagnostic) : Option Decision := (h d (h.after s before)).1

/-- The diagnostics about which it is asked in order from state `s` on, each with its answer. -/
def dialogue : τ → List Diagnostic → List (Diagnostic × Option Decision)
  | _, [] => []
  | s, d :: ds => (d, (h d s).1) :: dialogue (h d s).2 ds

theorem dialogue_snoc (s : τ) (ds : List Diagnostic) (d : Diagnostic) :
    h.dialogue s (ds ++ [d]) = h.dialogue s ds ++ [(d, h.answer s ds d)] := by
  induction ds generalizing s with
  | nil => rfl
  | cons e ds ih => exact congrArg ((e, (h e s).1) :: ·) (ih (h e s).2)

theorem map_fst_dialogue (s : τ) (ds : List Diagnostic) : (h.dialogue s ds).map Prod.fst = ds := by
  induction ds generalizing s with
  | nil => rfl
  | cons d ds ih => exact congrArg (d :: ·) (ih (h d s).2)

/-- The handler that starts in `s`. -/
def startingIn (s : τ) : Handler := fun history d => h.answer s history.reverse d

end StatefulHandler

namespace Diagnostic

/-- The diagnostics about which a handler is asked. -/
def arguable (ds : List Diagnostic) : List Diagnostic := ds.filter (·.severity ≠ .fatal)

theorem arguable_snoc (ds : List Diagnostic) (d : Diagnostic) :
    arguable (ds ++ [d]) = arguable ds ++ if d.severity = .fatal then [] else [d] := by
  by_cases hfatal : d.severity = .fatal <;> simp [arguable, hfatal]

/-- What the reports of one kind have in common: the code, the location and the message. Severity, labels and suggestions
do not matter. -/
def kind (d : Diagnostic) : Code × Option Location × String := (d.code, d.location, d.message)

theorem sameReport_iff {d e : Diagnostic} : d.sameReport e = true ↔ d.kind = e.kind := by
  simp only [sameReport, kind, Bool.and_eq_true, beq_iff_eq, Prod.mk.injEq]
  exact and_assoc

theorem any_sameReport (ds : List Diagnostic) (d : Diagnostic) :
    ds.any (·.sameReport d) = true ↔ d.kind ∈ ds.map kind := by
  simp only [List.any_eq_true, sameReport_iff, List.mem_map]

/-- The diagnostics in front of which there is none of their kind. -/
def firsts (ds : List Diagnostic) : List Diagnostic :=
  (ds.zipIdx.filter fun p => p.1.kind ∉ (ds.take p.2).map kind).map Prod.fst

theorem firsts_snoc (ds : List Diagnostic) (d : Diagnostic) :
    firsts (ds ++ [d]) = firsts ds ++ if d.kind ∈ ds.map kind then [] else [d] := by
  -- What stands in front of the others does not change.
  have hfront : ∀ p ∈ ds.zipIdx, decide (p.1.kind ∉ ((ds ++ [d]).take p.2).map kind) =
      decide (p.1.kind ∉ (ds.take p.2).map kind) := by
    intro p hp
    obtain ⟨-, hlt, -⟩ := List.mem_zipIdx hp
    rw [List.take_append_of_le_length (by omega)]
  simp only [firsts, List.zipIdx_append, List.filter_append, List.map_append, List.filter_congr hfront,
    List.zipIdx_singleton, Nat.zero_add]
  by_cases hold : d.kind ∈ ds.map kind <;> simp [hold]

end Diagnostic

open Diagnostic (arguable firsts kind)

namespace Reporter

variable {r : Reporter} {d : Diagnostic}

/-! ## What is kept -/

theorem reportAll_snoc (r : Reporter) (ds : List Diagnostic) (d : Diagnostic) :
    r.reportAll (ds ++ [d]) = ((r.reportAll ds).report d).2 := reportAll_append r ds [d]

theorem diagnostics_report (r : Reporter) (d : Diagnostic) : (r.report d).2.diagnostics =
    r.diagnostics ++ if d.kind ∈ r.diagnostics.map Diagnostic.kind then [] else [d] := by
  simp only [report, keep, ← Diagnostic.any_sameReport]
  split <;> simp

/-- From the start on, the first report of each kind is kept. -/
theorem diagnostics_reportAll_eq_firsts (hr : r.diagnostics = []) (ds : List Diagnostic) :
    (r.reportAll ds).diagnostics = firsts ds := by
  induction ds using List.reverseRecOn with
  | nil => exact hr
  | append_singleton ds d ih =>
    -- A report like this one is kept if and only if there was one.
    have hkept : d.kind ∈ (r.reportAll ds).diagnostics.map Diagnostic.kind ↔ d.kind ∈ ds.map Diagnostic.kind := by
      rw [← Diagnostic.any_sameReport, ← Diagnostic.any_sameReport, List.any_eq_true, List.any_eq_true]
      exact (r.has_reportAll_iff d ds).trans (or_iff_left (by simp [Has, hr]))
    rw [reportAll_snoc, diagnostics_report, Diagnostic.firsts_snoc, ← ih]
    simp only [hkept]

/-- No two reports that are kept are of one kind. -/
theorem nodup_kinds_reportAll (hr : (r.diagnostics.map Diagnostic.kind).Nodup) (ds : List Diagnostic) :
    ((r.reportAll ds).diagnostics.map Diagnostic.kind).Nodup := by
  induction ds generalizing r with
  | nil => exact hr
  | cons d ds ih =>
    refine ih ?_
    rw [diagnostics_report]
    split
    · rwa [List.append_nil]
    · next hnew =>
      rw [List.map_append, List.map_singleton]
      exact List.nodup_append.2 ⟨hr, by simp, by simpa using hnew⟩

/-! ## What is decided -/

/-- Policy, handler and what the handler was asked before decide, and nothing else. -/
theorem judge_eq (r : Reporter) (d : Diagnostic) : r.judge d =
    if d.severity = .fatal then ⟨d, none, .abort⟩
    else ⟨d, r.handler.map (· r.history d), (r.handler.bind (· r.history d)).getD (r.policy.decide d.severity)⟩ := by
  unfold judge
  cases hseverity : d.severity <;> cases r.handler <;> simp

theorem consulted_report (r : Reporter) (d : Diagnostic) : (r.report d).2.consulted =
    if d.severity = .fatal then r.consulted else (r.handler.map fun h => (d, h r.history d)).toList ++ r.consulted := by
  simp only [consulted, reports_report, judge_eq]
  split
  · simp
  · cases r.handler <;> simp

@[simp] theorem earlier_report (r : Reporter) (d : Diagnostic) : (r.report d).2.earlier = r.earlier := by
  simp only [report, keep]
  split <;> rfl

@[simp] theorem earlier_reportAll (r : Reporter) (ds : List Diagnostic) : (r.reportAll ds).earlier = r.earlier := by
  induction ds generalizing r with
  | nil => rfl
  | cons d ds ih => rw [reportAll_cons, ih, earlier_report]

section Asked
variable {τ : Type} {h : Option (StatefulHandler τ)} {s : τ} (hh : r.handler = h.map (·.startingIn s))
  (hearlier : r.earlier = [])
include hh hearlier

/-- A handler that was asked about some of the reports goes on from where that left it. -/
theorem answer_reportAll {ds asked : List Diagnostic}
    (hasked : (r.reportAll ds).consulted.reverse = h.elim [] (·.dialogue s asked)) (d : Diagnostic) :
    (r.reportAll ds).handler.bind (· (r.reportAll ds).history d) = h.bind (·.answer s asked d) := by
  cases h with
  | none => simp [hh]
  | some h =>
    have hhistory : (r.reportAll ds).history.reverse = asked := by
      rw [history, earlier_reportAll, hearlier, List.append_nil, ← List.map_reverse, hasked]
      exact h.map_fst_dialogue s asked
    simp [hh, StatefulHandler.startingIn, hhistory]

variable (hnew : r.reports = [])
include hnew

/-- Whatever is not fatal goes to the handler, once each time it is reported. -/
theorem consulted_reportAll (ds : List Diagnostic) :
    (r.reportAll ds).consulted.reverse = h.elim [] (·.dialogue s (arguable ds)) := by
  induction ds using List.reverseRecOn with
  | nil => cases h <;> simp [consulted, hnew, arguable, StatefulHandler.dialogue]
  | append_singleton ds d ih =>
    rw [reportAll_snoc, consulted_report, Diagnostic.arguable_snoc]
    split
    · rw [ih, List.append_nil]
    · have hanswer := answer_reportAll hh hearlier ih d
      cases h with
      | none => simpa [hh] using ih
      | some h =>
        simp only [handler_reportAll, hh, Option.map_some, Option.bind_some] at hanswer
        simp [hh, hanswer, ih, StatefulHandler.dialogue_snoc]

/-- The decision on a report is about its severity, the policy, and what the handler answers. -/
theorem decision_reportAll (ds : List Diagnostic) (d : Diagnostic) : ((r.reportAll ds).report d).1 =
    if d.severity = .fatal then .abort
    else (h.bind (·.answer s (arguable ds) d)).getD (r.policy.decide d.severity) := by
  rw [decision_report, judge_eq, apply_ite Report.decision,
    answer_reportAll hh hearlier (consulted_reportAll hh hearlier hnew ds) d, policy_reportAll]

end Asked

/-- Keeping and deciding, for every policy, every handler with a state, if there is one, and all reports in a row. Kept is
the first report of each kind, in order, so of two that are kept the codes, the locations or the messages differ. Whatever
had been kept before, so also if the report is not kept: a fatal report aborts, and any other one goes the way that the
handler answers, or else the way of the policy; and the handler is asked about those that are not fatal, each time they are
reported, in order, every time in the state in which the last time left it. -/
theorem keeps_firsts_and_decides_all {τ : Type} (policy : Policy) (h : Option (StatefulHandler τ)) (s : τ)
    (ds : List Diagnostic) :
    let r := Reporter.new policy (h.map (·.startingIn s)) []
    (r.reportAll ds).diagnostics = firsts ds ∧
      (firsts ds).Pairwise (fun d e => ¬ (d.code = e.code ∧ d.location = e.location ∧ d.message = e.message)) ∧
      ∀ kept : List Diagnostic,
        let after := { r with diagnostics := kept }.reportAll ds
        (∀ d, (after.report d).1 = if d.severity = .fatal then .abort
          else (h.bind (·.answer s (arguable ds) d)).getD (policy.decide d.severity)) ∧
        after.consulted.reverse = h.elim [] (·.dialogue s (arguable ds)) := by
  intro r
  have hfirsts := diagnostics_reportAll_eq_firsts (r := r) rfl ds
  refine ⟨hfirsts, ?_, fun kept => ⟨fun d => ?_, ?_⟩⟩
  · have hkinds := nodup_kinds_reportAll (r := r) List.nodup_nil ds
    rw [hfirsts] at hkinds
    refine (List.pairwise_map.1 hkinds).imp ?_
    rintro d e hne ⟨hcode, hlocation, hmessage⟩
    exact hne (by rw [kind, kind, hcode, hlocation, hmessage])
  · exact decision_reportAll (r := { r with diagnostics := kept }) rfl rfl rfl ds d
  · exact consulted_reportAll (r := { r with diagnostics := kept }) rfl rfl rfl ds

end Reporter

end Independence
