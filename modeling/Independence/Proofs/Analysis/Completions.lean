import Independence.Proofs.Report.Reporter
import Independence.Proofs.Analysis.Steps
import Independence.Analysis.Interference
/-!
# The check of completions

Before anything is replayed, every record that is definitely abrupt is reported, in the order of the table, and if there
are any the check fails with their number. It changes nothing but the reporter, and nothing at all if there are none.
-/

namespace Independence

variable {s t : Session Model} {r : Record}

/-- All these are reported, whatever the answers. -/
def Session.reportAll {m : Type} (s : Session m) (ds : List Diagnostic) : Session m :=
  { s with reporter := s.reporter.reportAll ds }

/-- What is reported of a record, which is something only if the record is definitely abrupt. -/
def Record.abruptDiagnostic? (r : Record) (name : String) : Option Diagnostic :=
  match r.effects.result with
  | .abrupt a => some (Analysis.abruptDiagnostic name r a)
  | .normal _ | .possiblyAbrupt _ _ => none

theorem Record.abruptDiagnostic?_eq_some {name : String} {d : Diagnostic} (h : r.abruptDiagnostic? name = some d) :
    ∃ a, r.effects.result = .abrupt a ∧ d = Analysis.abruptDiagnostic name r a := by
  unfold abruptDiagnostic? at h
  split at h
  · next a ha => exact ⟨a, ha, (Option.some.inj h).symm⟩
  all_goals cases h

namespace Table

/-- How many records are definitely abrupt. -/
def abruptCount (t : Table) : Nat := t.records.countP (·.effects.result.isDefinitelyAbrupt)

/-- What is reported of the records that are definitely abrupt, in order. -/
def abruptDiagnostics (t : Table) (nameOf : CallableId → String) : List Diagnostic :=
  t.records.filterMap fun r => r.abruptDiagnostic? (nameOf r.owner)

theorem abruptCount_eq_zero {t : Table} :
    t.abruptCount = 0 ↔ ∀ r ∈ t.records, r.effects.result.isDefinitelyAbrupt = false := by
  simp [abruptCount, List.countP_eq_zero]

theorem abruptCount_pos {t : Table} : 0 < t.abruptCount ↔ ∃ r ∈ t.records, ∃ a, r.effects.result = .abrupt a := by
  rw [abruptCount, List.countP_pos_iff]
  refine exists_congr fun r => and_congr_right fun _ => ?_
  cases r.effects.result <;> simp [Completion.isDefinitelyAbrupt]

theorem mem_abruptDiagnostics {t : Table} (hr : r ∈ t.records) {a : Abrupt} (ha : r.effects.result = .abrupt a)
    (nameOf : CallableId → String) : Analysis.abruptDiagnostic (nameOf r.owner) r a ∈ t.abruptDiagnostics nameOf :=
  List.mem_filterMap.2 ⟨r, hr, by simp [Record.abruptDiagnostic?, ha]⟩

theorem code_of_mem_abruptDiagnostics {t : Table} {nameOf : CallableId → String} {d : Diagnostic}
    (h : d ∈ t.abruptDiagnostics nameOf) : d.code = .abruptCompletion := by
  obtain ⟨r, -, hd⟩ := List.mem_filterMap.1 h
  obtain ⟨a, -, rfl⟩ := Record.abruptDiagnostic?_eq_some hd
  rfl

end Table

namespace Analysis

variable (setup : Setup)

theorem reportAbrupt_eq (r : Record) (s : Session Model) :
    reportAbrupt setup r s = .ok r.effects.result.isDefinitelyAbrupt
      (s.reportAll (r.abruptDiagnostic? (setup.names.resolve s.evaluator r.owner)).toList) := by
  unfold reportAbrupt Record.abruptDiagnostic?
  cases r.effects.result <;> rfl

theorem mapM_reportAbrupt_eq (rs : List Record) (s : Session Model) :
    rs.mapM (reportAbrupt setup) s = .ok (rs.map (·.effects.result.isDefinitelyAbrupt))
      (s.reportAll (rs.filterMap fun r => r.abruptDiagnostic? (setup.names.resolve s.evaluator r.owner))) := by
  induction rs generalizing s with
  | nil => rfl
  | cons r rs ih =>
    rw [List.mapM_cons]
    simp only [Bind.bind, EStateM.bind, reportAbrupt_eq, ih, List.map_cons, List.filterMap_cons]
    cases r.abruptDiagnostic? (setup.names.resolve s.evaluator r.owner) <;> rfl

theorem checkCompletions_eq (s : Session Model) :
    checkCompletions setup s =
      if 0 < s.table.abruptCount then .error (.abruptCompletion s.table.abruptCount)
        (s.reportAll (s.table.abruptDiagnostics (setup.names.resolve s.evaluator)))
      else .ok () s := by
  have hcount : (s.table.records.map (·.effects.result.isDefinitelyAbrupt)).count true = s.table.abruptCount := by
    simp [Table.abruptCount, List.count, List.countP_map, Function.comp_def]
  simp only [checkCompletions, Bind.bind, EStateM.bind, get_apply, mapM_reportAbrupt_eq, hcount]
  split
  · rfl
  · next h =>
    have hnone : (s.table.records.filterMap fun r => r.abruptDiagnostic? (setup.names.resolve s.evaluator r.owner)) = [] := by
      refine List.filterMap_eq_nil_iff.2 fun r hr => ?_
      have hr := Table.abruptCount_eq_zero.1 (Nat.eq_zero_of_not_pos h) r hr
      unfold Record.abruptDiagnostic?
      cases hresult : r.effects.result <;> simp_all [Completion.isDefinitelyAbrupt]
    rw [hnone]
    rfl

/-- Where no record is definitely abrupt, looking at the completions does nothing. -/
theorem checkCompletions_ok (h : ∀ r ∈ s.table.records, r.effects.result.isDefinitelyAbrupt = false) :
    checkCompletions setup s = .ok () s := by
  rw [checkCompletions_eq, Table.abruptCount_eq_zero.2 h, if_neg (Nat.lt_irrefl 0)]

/-- Unless some record is definitely abrupt, looking at the completions changes nothing. -/
theorem checkCompletions_ends (s : Session Model) :
    (checkCompletions setup).Ends s (fun _ t => ∃ reporter, t = { s with reporter })
      fun f _ => ∃ count, f = .abruptCompletion count := by
  rw [Ends, checkCompletions_eq]
  by_cases hcount : 0 < s.table.abruptCount
  · rw [if_pos hcount]
    exact ⟨_, rfl⟩
  · rw [if_neg hcount]
    exact ⟨s.reporter, rfl⟩

/-- Completions are looked at without a trace where no record is definitely abrupt, and otherwise told of. -/
theorem checkCompletions_tells (s : Session Model) :
    (checkCompletions setup).Ends s
      (fun _ t => t = s ∧ ∀ r ∈ s.table.records, r.effects.result.isDefinitelyAbrupt = false)
      fun e t => t.reporter.Told .abruptCompletion ∧ ∃ count, e = .abruptCompletion count := by
  rw [Ends, checkCompletions_eq]
  by_cases hcount : 0 < s.table.abruptCount
  · rw [if_pos hcount]
    obtain ⟨r, hr, a, ha⟩ := Table.abruptCount_pos.1 hcount
    exact ⟨(Reporter.told_reportAll_iff _ _ _).2 (.inl ⟨_, Table.mem_abruptDiagnostics hr ha _, rfl⟩), _, rfl⟩
  · rw [if_neg hcount]
    exact ⟨rfl, Table.abruptCount_eq_zero.1 (Nat.eq_zero_of_not_pos hcount)⟩

end Analysis

end Independence
