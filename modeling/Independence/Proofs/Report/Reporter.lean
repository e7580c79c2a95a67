import Mathlib.Data.List.Infix
import Mathlib.Order.Defs.Unbundled
import Independence.Report.Reporter
/-!
# What a reporter remembers

A reporter keeps a diagnostic for every report, and never forgets one. While it lets everything pass, it was told of
nothing fatal. Without a handler its answers depend on the policy alone, so two reporters with one policy answer alike.
-/

namespace Independence

variable {r : Reporter} {d e : Diagnostic}

theorem Diagnostic.code_of_sameReport (h : d.sameReport e = true) : d.code = e.code := by
  simp only [sameReport, Bool.and_eq_true, beq_iff_eq] at h
  exact h.1.1

theorem Diagnostic.location_of_sameReport (h : d.sameReport e = true) : d.location = e.location := by
  simp only [sameReport, Bool.and_eq_true, beq_iff_eq] at h
  exact h.1.2

theorem Diagnostic.message_of_sameReport (h : d.sameReport e = true) : d.message = e.message := by
  simp only [sameReport, Bool.and_eq_true, beq_iff_eq] at h
  exact h.2

theorem Diagnostic.sameReport_self (d : Diagnostic) : d.sameReport d = true := by simp [sameReport]

/-- Diagnostics that are the same report are so to the same others. -/
theorem Diagnostic.sameReport_congr (h : d.sameReport e = true) (x : Diagnostic) : d.sameReport x = e.sameReport x := by
  simp only [sameReport, Bool.and_eq_true, beq_iff_eq] at h
  obtain ⟨⟨hcode, hlocation⟩, hmessage⟩ := h
  simp [sameReport, hcode, hlocation, hmessage]

namespace Reporter

theorem reports_report (r : Reporter) (d : Diagnostic) : (r.report d).2.reports = r.judge d :: r.reports := by
  simp only [report, keep]

theorem decision_report (r : Reporter) (d : Diagnostic) : (r.report d).1 = (r.judge d).decision := rfl

theorem diagnostic_judge (r : Reporter) (d : Diagnostic) : (r.judge d).diagnostic = d := by
  unfold judge
  split <;> rfl

/-- A fatal diagnostic is never let pass. -/
theorem decision_judge_of_fatal (h : d.severity = .fatal) : (r.judge d).decision = .abort := by
  unfold judge
  rw [h]

/-- A diagnostic like the one reported is kept, and those kept before stay. -/
theorem mem_diagnostics_report (r : Reporter) (d : Diagnostic) :
    (∃ e ∈ (r.report d).2.diagnostics, e.sameReport d = true) ∧ r.diagnostics ⊆ (r.report d).2.diagnostics := by
  simp only [report, keep]
  split
  · next h => exact ⟨by simpa using h, List.Subset.refl _⟩
  · exact ⟨⟨d, by simp, d.sameReport_self⟩, List.subset_append_left _ _⟩

/-! ## Letting everything pass -/

/-- Everything reported so far was let pass, and nothing of it was fatal. -/
def Clear (r : Reporter) : Prop := ∀ p ∈ r.reports, p.decision = .proceed ∧ p.diagnostic.severity ≠ .fatal

/-- A diagnostic with the code was kept. -/
def Told (r : Reporter) (c : Code) : Prop := ∃ d ∈ r.diagnostics, d.code = c

theorem clear_new (p : Policy) (h : Option Handler) (earlier : List Diagnostic) : (Reporter.new p h earlier).Clear := by
  simp [Clear, new]

theorem Clear.report (h : r.Clear) (hd : (r.report d).1 = .proceed) : (r.report d).2.Clear := by
  rw [decision_report] at hd
  intro p hp
  rw [reports_report] at hp
  rcases List.mem_cons.1 hp with rfl | hp
  · refine ⟨hd, fun hfatal => ?_⟩
    rw [diagnostic_judge] at hfatal
    rw [decision_judge_of_fatal hfatal] at hd
    cases hd
  · exact h p hp

/-- What can be said of a diagnostic that is kept was said of one reported, as far as it does not tell apart
diagnostics that are the same report. -/
theorem exists_mem_report {P : Diagnostic → Prop} (hP : ∀ {d e : Diagnostic}, d.sameReport e = true → (P d ↔ P e))
    (r : Reporter) (d : Diagnostic) :
    (∃ e ∈ (r.report d).2.diagnostics, P e) ↔ P d ∨ ∃ e ∈ r.diagnostics, P e := by
  obtain ⟨⟨e, he, hsame⟩, hold⟩ := mem_diagnostics_report r d
  constructor
  · rintro ⟨x, hx, h⟩
    simp only [report, keep] at hx
    split at hx
    · exact .inr ⟨x, hx, h⟩
    · rcases List.mem_append.1 hx with hx | hx
      · exact .inr ⟨x, hx, h⟩
      · exact .inl (List.mem_singleton.1 hx ▸ h)
  · rintro (h | ⟨x, hx, h⟩)
    · exact ⟨e, he, (hP hsame).2 h⟩
    · exact ⟨x, hold hx, h⟩

theorem told_report_iff {c : Code} : (r.report d).2.Told c ↔ d.code = c ∨ r.Told c :=
  exists_mem_report (fun h => by rw [Diagnostic.code_of_sameReport h]) r d

theorem told_report (r : Reporter) (d : Diagnostic) : (r.report d).2.Told d.code := told_report_iff.2 (.inl rfl)

theorem not_told_new (p : Policy) (h : Option Handler) (earlier : List Diagnostic) (c : Code) :
    ¬ (Reporter.new p h earlier).Told c := by
  simp [Told, new]

/-- A diagnostic with the code was kept for the location. -/
def ToldAt (r : Reporter) (c : Code) (l : Location) : Prop := ∃ d ∈ r.diagnostics, d.code = c ∧ d.location = some l

theorem ToldAt.told {c : Code} {l : Location} (h : r.ToldAt c l) : r.Told c := by
  obtain ⟨d, hd, hc, -⟩ := h
  exact ⟨d, hd, hc⟩

/-! ## Reports before the conflicts -/

/-- Between the two nothing was forgotten, and no conflict was reported. -/
structure Precedes (r r' : Reporter) : Prop where
  policy : r'.policy = r.policy
  handler : r'.handler = r.handler
  told : ∀ c, r.Told c → r'.Told c
  conflicts : r'.Told .writeConflict → r.Told .writeConflict

instance : IsPreorder Reporter Precedes where
  refl _ := ⟨rfl, rfl, fun _ h => h, fun h => h⟩
  trans _ _ _ h h' := ⟨h'.policy.trans h.policy, h'.handler.trans h.handler, fun c hc => h'.told c (h.told c hc),
    fun hc => h.conflicts (h'.conflicts hc)⟩

@[simp] theorem policy_report (r : Reporter) (d : Diagnostic) : (r.report d).2.policy = r.policy := by
  simp only [report, keep]
  split <;> rfl

@[simp] theorem handler_report (r : Reporter) (d : Diagnostic) : (r.report d).2.handler = r.handler := by
  simp only [report, keep]
  split <;> rfl

/-! ## Many reports -/

/-- The reporter after all these reports, whatever it answers. -/
def reportAll (r : Reporter) (ds : List Diagnostic) : Reporter := ds.foldl (fun r d => (r.report d).2) r

@[simp] theorem reportAll_nil (r : Reporter) : r.reportAll [] = r := rfl

@[simp] theorem reportAll_cons (r : Reporter) (d : Diagnostic) (ds : List Diagnostic) :
    r.reportAll (d :: ds) = (r.report d).2.reportAll ds := rfl

theorem reportAll_append (r : Reporter) (ds es : List Diagnostic) :
    r.reportAll (ds ++ es) = (r.reportAll ds).reportAll es := List.foldl_append

@[simp] theorem policy_reportAll (r : Reporter) (ds : List Diagnostic) : (r.reportAll ds).policy = r.policy := by
  induction ds generalizing r with
  | nil => rfl
  | cons d ds ih => rw [reportAll_cons, ih, policy_report]

@[simp] theorem handler_reportAll (r : Reporter) (ds : List Diagnostic) : (r.reportAll ds).handler = r.handler := by
  induction ds generalizing r with
  | nil => rfl
  | cons d ds ih => rw [reportAll_cons, ih, handler_report]

theorem exists_mem_reportAll {P : Diagnostic → Prop} (hP : ∀ {d e : Diagnostic}, d.sameReport e = true → (P d ↔ P e))
    (r : Reporter) (ds : List Diagnostic) :
    (∃ e ∈ (r.reportAll ds).diagnostics, P e) ↔ (∃ d ∈ ds, P d) ∨ ∃ e ∈ r.diagnostics, P e := by
  induction ds generalizing r with
  | nil => simp
  | cons d ds ih =>
    rw [reportAll_cons, ih, exists_mem_report hP]
    simp only [List.mem_cons, exists_eq_or_imp, or_left_comm, or_assoc]

theorem told_reportAll_iff (r : Reporter) (c : Code) (ds : List Diagnostic) :
    (r.reportAll ds).Told c ↔ (∃ d ∈ ds, d.code = c) ∨ r.Told c :=
  exists_mem_reportAll (fun h => by rw [Diagnostic.code_of_sameReport h]) r ds

theorem toldAt_reportAll_iff (r : Reporter) (c : Code) (l : Location) (ds : List Diagnostic) :
    (r.reportAll ds).ToldAt c l ↔ (∃ d ∈ ds, d.code = c ∧ d.location = some l) ∨ r.ToldAt c l :=
  exists_mem_reportAll
    (fun h => by rw [Diagnostic.code_of_sameReport h, Diagnostic.location_of_sameReport h]) r ds

/-- The same report is kept. -/
def Has (r : Reporter) (d : Diagnostic) : Prop := ∃ e ∈ r.diagnostics, e.sameReport d = true

theorem has_reportAll_iff (r : Reporter) (d : Diagnostic) (ds : List Diagnostic) :
    (r.reportAll ds).Has d ↔ (∃ e ∈ ds, e.sameReport d = true) ∨ r.Has d :=
  exists_mem_reportAll (fun h => by rw [Diagnostic.sameReport_congr h]) r ds

theorem has_reportAll (r : Reporter) {ds : List Diagnostic} (hd : d ∈ ds) : (r.reportAll ds).Has d :=
  (r.has_reportAll_iff d ds).2 (.inl ⟨d, hd, d.sameReport_self⟩)

theorem Has.reportAll (h : r.Has d) (ds : List Diagnostic) : (r.reportAll ds).Has d :=
  (r.has_reportAll_iff d ds).2 (.inr h)

/-- Nothing is kept that was not reported. -/
theorem mem_of_mem_reportAll {ds : List Diagnostic} (h : d ∈ (r.reportAll ds).diagnostics) :
    d ∈ r.diagnostics ∨ d ∈ ds := by
  induction ds generalizing r with
  | nil => exact .inl h
  | cons e ds ih =>
    rcases ih h with h | h
    · simp only [report, keep] at h
      split at h
      · exact .inl h
      · exact (List.mem_append.1 h).imp_right fun h => List.mem_cons.2 (.inl (List.mem_singleton.1 h))
    · exact .inr (List.mem_cons_of_mem e h)

/-- What is no one's repetition is kept. -/
theorem diagnostics_reportAll {ds : List Diagnostic} (hold : ∀ e ∈ r.diagnostics, ∀ d ∈ ds, e.sameReport d = false)
    (hnew : ds.Pairwise fun d e => d.sameReport e = false) : (r.reportAll ds).diagnostics = r.diagnostics ++ ds := by
  induction ds generalizing r with
  | nil => simp
  | cons d ds ih =>
    obtain ⟨hd, hnew⟩ := List.pairwise_cons.1 hnew
    have hkept : (r.report d).2.diagnostics = r.diagnostics ++ [d] := by
      have hfresh : r.diagnostics.any (·.sameReport d) = false :=
        List.any_eq_false.2 fun e he => by simp [hold e he d List.mem_cons_self]
      simp [report, keep, hfresh]
    have hstep : ∀ e ∈ (r.report d).2.diagnostics, ∀ x ∈ ds, e.sameReport x = false := by
      intro e he x hx
      rw [hkept] at he
      rcases List.mem_append.1 he with he | he
      · exact hold e he x (List.mem_cons_of_mem d hx)
      · exact List.mem_singleton.1 he ▸ hd x hx
    rw [reportAll_cons, ih hstep hnew, hkept, List.append_assoc, List.singleton_append]

theorem reports_suffix_reportAll (r : Reporter) (ds : List Diagnostic) : r.reports <:+ (r.reportAll ds).reports := by
  induction ds generalizing r with
  | nil => exact List.suffix_rfl
  | cons d ds ih =>
    refine List.IsSuffix.trans ?_ (ih (r.report d).2)
    rw [reports_report]
    exact List.suffix_cons _ _

/-- Each one was judged, by the same policy and handler. -/
theorem exists_judge_of_mem (r : Reporter) {ds : List Diagnostic} (hd : d ∈ ds) :
    ∃ q : Reporter, q.policy = r.policy ∧ q.handler = r.handler ∧ q.judge d ∈ (r.reportAll ds).reports := by
  obtain ⟨as, bs, rfl⟩ := List.append_of_mem hd
  refine ⟨r.reportAll as, policy_reportAll r as, handler_reportAll r as, ?_⟩
  rw [reportAll_append, reportAll_cons]
  refine (reports_suffix_reportAll _ bs).subset ?_
  rw [reports_report]
  exact List.mem_cons_self

theorem precedes_reportAll (r : Reporter) {ds : List Diagnostic} (h : ∀ d ∈ ds, d.code ≠ .writeConflict) :
    r.Precedes (r.reportAll ds) where
  policy := policy_reportAll r ds
  handler := handler_reportAll r ds
  told c hc := (told_reportAll_iff r c ds).2 (.inr hc)
  conflicts hc := ((told_reportAll_iff r _ ds).1 hc).resolve_left fun ⟨d, hd, hcode⟩ => h d hd hcode

/-! ## Two reporters without a handler -/

/-- The two have one policy and no handler, and `r'` was told of the same as `r` besides what `before` was told of. -/
structure Beside (before r r' : Reporter) : Prop where
  policy : r'.policy = r.policy
  unhandled : r.handler = none ∧ r'.handler = none
  told : ∀ c, r'.Told c ↔ r.Told c ∨ before.Told c
  same : before.diagnostics = [] → r'.diagnostics = r.diagnostics

theorem beside_start {p : Policy} (hp : r.policy = p) (hh : r.handler = none) (earlier : List Diagnostic) :
    r.Beside (.new p none earlier) r where
  policy := hp
  unhandled := ⟨rfl, hh⟩
  told c := by simp [not_told_new]
  same h := h

theorem decision_judge_of_unhandled (h : r.handler = none) :
    (r.judge d).decision = if d.severity = .fatal then .abort else r.policy.decide d.severity := by
  unfold judge
  rw [h]
  cases d.severity <;> rfl

/-- Without a handler the policy decides, about fatal diagnostics like about all others. -/
theorem answer_of_unhandled (h : r.handler = none) : (r.report d).1 = r.policy.decide d.severity := by
  rw [decision_report, decision_judge_of_unhandled h]
  split
  · next hfatal => rw [hfatal, Policy.decide]
  · rfl

/-- Where warnings abort and nobody is asked, only what is not a warning can have been let pass. -/
theorem severity_ne_warning_of_clear (hp : r.policy.warningsAbort = true) (hh : r.handler = none) {ds : List Diagnostic}
    (hclear : (r.reportAll ds).Clear) (hd : d ∈ ds) : d.severity ≠ .warning := by
  intro hwarning
  obtain ⟨q, hpolicy, hhandler, hq⟩ := r.exists_judge_of_mem hd
  have habort : (q.judge d).decision = .abort := by
    rw [decision_judge_of_unhandled (hhandler.trans hh), hwarning, hpolicy]
    simp [Policy.decide, hp]
  rw [(hclear _ hq).1] at habort
  cases habort

/-- They answer alike, and stay beside each other. -/
theorem Beside.report {before r' : Reporter} (h : before.Beside r r') (d : Diagnostic) :
    (r'.report d).1 = (r.report d).1 ∧ before.Beside (r.report d).2 (r'.report d).2 := by
  refine ⟨?_, ?_, ?_, fun c => ?_, fun hempty => ?_⟩
  · rw [decision_report, decision_report, decision_judge_of_unhandled h.unhandled.1,
      decision_judge_of_unhandled h.unhandled.2, h.policy]
  · rw [policy_report, policy_report, h.policy]
  · rw [handler_report, handler_report]
    exact h.unhandled
  · rw [told_report_iff, told_report_iff, h.told, or_assoc]
  · have hsame := h.same hempty
    simp only [Reporter.report, keep, hsame]
    split <;> simp [hsame]

theorem Beside.reportAll {before r' : Reporter} (h : before.Beside r r') (ds : List Diagnostic) :
    before.Beside (r.reportAll ds) (r'.reportAll ds) := by
  induction ds generalizing r r' with
  | nil => exact h
  | cons d ds ih => exact ih (h.report d).2

end Reporter

end Independence
