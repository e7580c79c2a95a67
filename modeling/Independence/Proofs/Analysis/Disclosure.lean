import Independence.Proofs.Analysis.Phases
import Independence.Proofs.Analysis.Soundness
import Independence.Proofs.Analysis.Telling
/-!
# Escaping writes are disclosed

A record that is captured brings the reports of its side effects with it, and later reports only add to them. So at the end
of a run there is a warning for every write of a record to an object that its own evaluation did not create. Where
warnings abort, no run succeeds in which a candidate wrote to anything else than its own objects.
-/

namespace Independence

variable {s t : Session Model} {names : Names} {setup : Setup}

/-! ## Names -/

/-- What a callable is called: the name given to it from outside, else its own if it has one that is not empty, else a name
that stands for all the others. -/
inductive Names.Calls (names : Names) (m : Model) (f : CallableId) : String → Prop
  | given {name : String} (h : names.overrides.lookup f = some name) : names.Calls m f name
  | own {name : String} (h : names.overrides.lookup f = none)
    (hname : (m.functions[f.index]?).bind (·.signature.name) = some name) (hne : name ≠ "") : names.Calls m f name
  | unnamed (h : names.overrides.lookup f = none)
    (hnone : ∀ name, (m.functions[f.index]?).bind (·.signature.name) = some name → name = "") :
    names.Calls m f "(unknown function)"

theorem Names.calls_resolve (names : Names) (m : Model) (f : CallableId) : names.Calls m f (names.resolve m f) := by
  have hsignature : (Evaluator.signature? m f).bind Signature.name = (m.functions[f.index]?).bind (·.signature.name) :=
    Option.bind_map
  unfold resolve
  split
  · next name hgiven => exact .given hgiven
  · next hgiven =>
    rw [hsignature]
    cases hname : (m.functions[f.index]?).bind (·.signature.name) with
    | none => exact .unnamed hgiven (by simp [hname])
    | some name =>
      by_cases hempty : name = ""
      · subst hempty
        exact .unnamed hgiven (by simp [hname])
      · rw [Option.filter_some, if_pos (by simpa using hempty)]
        exact .own hgiven hname hempty

/-! ## One record -/

@[simp] theorem SideEffect.code_diagnostic (e : SideEffect) (name : String) : (e.diagnostic name).code = .sideEffect := rfl

@[simp] theorem SideEffect.location_diagnostic (e : SideEffect) (name : String) :
    (e.diagnostic name).location = e.location := rfl

theorem SideEffect.message_diagnostic (b : Binding) (l : Option Location) (name : String) :
    (SideEffect.diagnostic ⟨.wroteProperty b, l⟩ name).message = s!"optimized function {name} " ++
      s!"modifies a property of obj{b.object.index} which exists outside the optimized function" := by
  have hobject : "modifies a property of " ++ b.object.text = s!"modifies a property of obj{b.object.index}" := by
    have htext : b.object.text = "obj" ++ b.object.index.repr := rfl
    rw [htext, ← String.append_assoc]
    rfl
  exact congrArg (fun t => s!"optimized function {name} " ++ (t ++ " which exists outside the optimized function")) hobject

/-- Every write of the effects to an object that they did not create was reported where it was made. -/
def Reporter.Discloses (p : Reporter) (name : String) (e : Effects) : Prop :=
  ∀ (b : Binding) (site : WriteSite), e.writes[b]? = some site → b.object ∉ e.created →
    ∃ l, site.location = some l ∧ p.Has (SideEffect.diagnostic ⟨.wroteProperty b, some l⟩ name)

theorem Reporter.Discloses.reportAll {p : Reporter} {name : String} {e : Effects} (h : p.Discloses name e)
    (ds : List Diagnostic) : (p.reportAll ds).Discloses name e := by
  intro b site hb hout
  obtain ⟨l, hl, hhas⟩ := h b site hb hout
  exact ⟨l, hl, hhas.reportAll ds⟩

/-- An evaluation whose side effects are reported discloses what it does. -/
theorem Reporter.discloses_of_traceOf {m m' : Model} {call : Call} {e : Effects} {es : List Event}
    (h : m.traceOf call = .ok e (es, m')) (p : Reporter) (name : String) :
    (p.reportAll (disclosures name es)).Discloses name e := by
  intro b site hb hout
  rcases Model.announced_of_traceOf h hb with hcreated | ⟨l, hl, hmem⟩
  · exact absurd hcreated hout
  · exact ⟨l, hl, p.has_reportAll (mem_disclosures hmem)⟩

/-! ## Discovery -/

/-- The writes of all records are disclosed, under the names of the candidates. -/
def Session.Discloses (names : Names) (s : Session Model) : Prop :=
  ∀ r ∈ s.table.records, s.reporter.Discloses (names.resolve s.evaluator r.owner) r.effects

/-- What was disclosed in `s` is so in `t`, and what was captured in between is disclosed too. -/
structure Session.Candid (names : Names) (s t : Session Model) : Prop where
  functions : t.evaluator.functions = s.evaluator.functions
  tells : s.Tells t
  discloses : s.Discloses names → t.Discloses names

instance : IsPreorder (Session Model) (Session.Candid names) where
  refl s := ⟨rfl, refl_of Session.Tells s, fun h => h⟩
  trans _ _ _ h h' := ⟨h'.functions.trans h.functions, trans_of Session.Tells h.tells h'.tells,
    fun hs => h'.discloses (h.discloses hs)⟩

/-- Reports take nothing back. -/
theorem Session.Discloses.later (h : s.Discloses names) (htells : s.Tells t)
    (hfunctions : t.evaluator.functions = s.evaluator.functions) :
    ∀ r ∈ s.table.records, t.reporter.Discloses (names.resolve t.evaluator r.owner) r.effects := by
  intro r hr
  obtain ⟨ds, -, ht⟩ := htells
  rw [ht, names.resolve_congr hfunctions]
  exact (h r hr).reportAll ds

theorem Session.Candid.of_table (htable : t.table = s.table) (htells : s.Tells t)
    (hfunctions : t.evaluator.functions = s.evaluator.functions) : s.Candid names t where
  functions := hfunctions
  tells := htells
  discloses h := by
    rw [Discloses, htable]
    exact h.later htells hfunctions

namespace Analysis

/-- A capture discloses what its evaluation did. -/
theorem captureNew_candid (setup : Setup) (c : Candidate) :
    Follows (Session.Candid setup.names) (captureNew setup c) := by
  intro s
  refine ((captureNew_ends setup c s).and (captureNew_tells setup c s)).mono ?_ ?_
  · rintro ⟨r, requests⟩ t ⟨⟨hgains, call, es, htrace, htold⟩, htells⟩
    have hfunctions := hgains.evaluator.functions
    refine ⟨hfunctions, htells, fun h q hq => ?_⟩
    rcases (Table.mem_records_insert? hgains.table).1 hq with hq | rfl
    · exact h.later htells hfunctions q hq
    · have howner : q.owner = c.callable := congrArg Candidate.callable hgains.candidate
      rw [htold, setup.names.resolve_congr hfunctions, howner]
      exact Reporter.discloses_of_traceOf htrace _ _
  · rintro x t ⟨hfails, htells⟩
    exact .of_table hfails.kept.table htells hfails.kept.evaluator.functions

theorem discover_candid (setup : Setup) : Follows (Session.Candid setup.names) (discover setup) :=
  .discover (fun h => .of_table h.table h.tells h.functions)
    (fun hd s => Ends.reported (.of_table rfl ⟨[_], by simpa using hd, rfl⟩ rfl)) (captureNew_candid setup)

end Analysis

/-! ## Whole runs -/

namespace Checker

/-- No escaping write goes unreported: a run that succeeds warns of every write of a record to an object that its
evaluation did not create, where the write was made and with the names of the candidate and of the object. If warnings
abort and there is no handler, a run that succeeds has no warnings, and every record writes to objects of its own only. -/
theorem escaping_writes_are_disclosed (c : Checker Model) (roots : List Request) {v : Verified}
    (hrun : (c.run roots).1 = .ok v) :
    (∀ r ∈ v.table.records, ∀ (b : Binding) (site : WriteSite), r.effects.writes[b]? = some site →
      b.object ∉ r.effects.created → ∃ l, site.location = some l ∧ ∃ d ∈ v.warnings,
        d.code = .sideEffect ∧ d.location = some l ∧ ∃ name, c.names.Calls c.evaluator r.owner name ∧
          d.message = s!"optimized function {name} " ++
            s!"modifies a property of obj{b.object.index} which exists outside the optimized function") ∧
    (c.settings.warningsAsErrors = true → c.handler = none →
      v.warnings = [] ∧ ∀ r ∈ v.table.records, ∀ b ∈ r.effects.writes, b.object ∈ r.effects.created) := by
  obtain ⟨s, hd, rfl, hclear⟩ := exists_discover_of_run hrun
  have hcandid : (c.session roots).Candid c.names s := (Analysis.discover_candid c.setup (c.session roots)).of_ok hd
  obtain ⟨ds, hds, htold⟩ := hcandid.tells
  have hwarned : ∀ r ∈ s.table.records, ∀ (b : Binding) (site : WriteSite), r.effects.writes[b]? = some site →
      b.object ∉ r.effects.created → ∃ l, site.location = some l ∧ ∃ d ∈ s.reporter.warnings,
        d.sameReport (SideEffect.diagnostic ⟨.wroteProperty b, some l⟩ (c.names.resolve c.evaluator r.owner)) = true := by
    intro r hr b site hb hout
    have hall := hcandid.discloses (fun _ h => by cases h)
    obtain ⟨l, hl, d, hkept, hsame⟩ := hall r hr b site hb hout
    rw [c.names.resolve_congr hcandid.functions] at hsame
    have hreported : d ∈ ds := by
      rw [htold] at hkept
      exact (Reporter.mem_of_mem_reportAll hkept).resolve_left (by simp [session, Session.start, Reporter.new])
    have hwarning : d.severity = .warning := (hds d hreported).warns.2 (Diagnostic.code_of_sameReport hsame)
    exact ⟨l, hl, d, List.mem_filter.2 ⟨hkept, by simp [hwarning]⟩, hsame⟩
  refine ⟨fun r hr b site hb hout => ?_, fun hstrict hh => ?_⟩
  · obtain ⟨l, hl, d, hwarning, hsame⟩ := hwarned r hr b site hb hout
    refine ⟨l, hl, d, hwarning, ?_, ?_, _, c.names.calls_resolve c.evaluator r.owner, ?_⟩
    · rw [Diagnostic.code_of_sameReport hsame, SideEffect.code_diagnostic]
    · rw [Diagnostic.location_of_sameReport hsame, SideEffect.location_diagnostic]
    · rw [Diagnostic.message_of_sameReport hsame, SideEffect.message_diagnostic]
  · have hnone : s.reporter.warnings = [] := by
      refine List.filter_eq_nil_iff.2 fun d hkept => ?_
      rw [htold] at hkept hclear
      have hreported : d ∈ ds :=
        (Reporter.mem_of_mem_reportAll hkept).resolve_left (by simp [session, Session.start, Reporter.new])
      simpa using Reporter.severity_ne_warning_of_clear hstrict hh hclear hreported
    refine ⟨hnone, fun r hr b hb => ?_⟩
    by_contra hout
    obtain ⟨l, -, d, hwarning, -⟩ := hwarned r hr b _ (Std.ExtTreeMap.getElem?_eq_some_getElem hb) hout
    rw [hnone] at hwarning
    cases hwarning

/-- Its only function writes to an object of its own, and warnings abort. -/
def tidySample : Checker Model :=
  let body : Body := .op .allocate (.op (.write (.allocated 0) ⟨0⟩ (.primitive .null) (.ofLine 1)) .done)
  ⟨{ Model.sample with functions := [⟨⟨some "tidy", [], ⟨"sample", .dummy⟩⟩, body⟩] }, { warningsAsErrors := true },
    .empty, none, []⟩

/-- In the sample the first function writes to the object that was there before, and the run warns of it. A function that
writes to an object of its own is not warned of, even where warnings abort. -/
theorem escaping_writes_are_disclosed_sample :
    (∃ v : Verified, (sample.run [.ofCallable ⟨0⟩, .ofCallable ⟨2⟩]).1 = .ok v ∧
      ∃ r ∈ v.table.records, ∃ (b : Binding) (site : WriteSite), r.effects.writes[b]? = some site ∧
        b.object ∉ r.effects.created ∧ ∃ d ∈ v.warnings, d.code = .sideEffect ∧ d.location = site.location) ∧
    ∃ v : Verified, (tidySample.run [.ofCallable ⟨0⟩]).1 = .ok v ∧ v.warnings = [] ∧
      ∃ r ∈ v.table.records, ∃ b ∈ r.effects.writes, b.object ∈ r.effects.created := by
  constructor
  · have h : ((sample.run [.ofCallable ⟨0⟩, .ofCallable ⟨2⟩]).1.toOption.any fun v => v.table.records.any fun r =>
        r.effects.writes.contains ⟨⟨0⟩, ⟨0⟩⟩ && !r.effects.created.contains ⟨0⟩) = true := by decide +kernel
    obtain ⟨v, hrun, h⟩ := exists_ok_of_any h
    obtain ⟨r, hr, h⟩ := List.any_eq_true.1 h
    simp only [Bool.and_eq_true, Bool.not_eq_true'] at h
    have hb := Std.ExtTreeMap.getElem?_eq_some_getElem (Std.ExtTreeMap.mem_iff_contains.2 h.1)
    have hout : (⟨0⟩ : ObjectId) ∉ r.effects.created := by simp [Std.ExtTreeSet.mem_iff_contains, h.2]
    obtain ⟨l, hl, d, hd, hcode, hlocation, -⟩ := (escaping_writes_are_disclosed sample _ hrun).1 r hr _ _ hb hout
    exact ⟨v, hrun, r, hr, _, _, hb, hout, d, hd, hcode, hlocation.trans hl.symm⟩
  · have h : ((tidySample.run [.ofCallable ⟨0⟩]).1.toOption.any fun v => v.table.records.any fun r =>
        r.effects.writes.contains ⟨⟨1⟩, ⟨0⟩⟩) = true := by decide +kernel
    obtain ⟨v, hrun, h⟩ := exists_ok_of_any h
    obtain ⟨r, hr, hb⟩ := List.any_eq_true.1 h
    have hb := Std.ExtTreeMap.mem_iff_contains.2 hb
    obtain ⟨hnone, hown⟩ := (escaping_writes_are_disclosed tidySample _ hrun).2 rfl rfl
    exact ⟨v, hrun, hnone, r, hr, _, hb, hown r hr _ hb⟩

end Checker

end Independence
