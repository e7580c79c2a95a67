import Independence.Proofs.Analysis.Turns
/-!
# Duplicates and the forest

Whether a request for an accepted callable is the accepted one seen again is decided while the table still grows. But
whoever is in progress has a record by then, and so has whoever registered the accepted request, and a record that is added
later changes the ancestors of neither. So the decision is the one that the forest at the end of the run calls for.
-/

namespace Independence

variable {m : Model} {s t : Session Model} {f g : CallableId} {setup : Setup}

/-! ## Ancestors in a table that grows -/

namespace Table

variable {early late : Table} {a : CallableId} {x y : Option CallableId}

/-- Both are candidates, and one is the other or an ancestor of the other. -/
def InLine (t : Table) (x y : Option CallableId) : Prop :=
  ∃ f g, x = some f ∧ y = some g ∧ (f = g ∨ t.Ancestor f g ∨ t.Ancestor g f)

section Later
variable (hrecords : early.records <+: late.records)
include hrecords

theorem parent?_later (hf : f ∈ early.owners) : late.parent? f = early.parent? f := by
  obtain ⟨r, hr, rfl⟩ := List.mem_map.1 hf
  rw [parent?_owner hr, parent?_owner (hrecords.subset hr)]

variable (hparents : ∀ r ∈ early.records, ∀ p, r.parent = some p → p ∈ early.owners)
include hparents

/-- Where all parents have records, records added later change nothing about the ancestors of the earlier ones. -/
theorem ancestor_later (hf : f ∈ early.owners) : late.Ancestor a f ↔ early.Ancestor a f := by
  have hmem : ∀ {g h : CallableId}, early.parent? g = some h → h ∈ early.owners := by
    intro g h hgh
    obtain ⟨r, hr, hp⟩ := Option.bind_eq_some_iff.1 hgh
    exact hparents r (mem_of_get? hr) h hp
  constructor
  · intro h
    unfold Ancestor at h
    induction h using Relation.TransGen.head_induction_on with
    | single hp =>
      rw [parent?_later hrecords hf] at hp
      exact .single hp
    | head hp _ ih =>
      rw [parent?_later hrecords hf] at hp
      exact .head hp (ih (hmem hp))
  · intro h
    unfold Ancestor at h
    induction h using Relation.TransGen.head_induction_on with
    | single hp =>
      rw [← parent?_later hrecords hf] at hp
      exact .single hp
    | head hp _ ih => exact .head ((parent?_later hrecords hf).trans hp) (ih (hmem hp))

theorem inLine_later (hx : ∀ f, x = some f → f ∈ early.owners) (hy : ∀ g, y = some g → g ∈ early.owners) :
    late.InLine x y ↔ early.InLine x y := by
  refine exists_congr fun f => exists_congr fun g => and_congr_right fun hf => and_congr_right fun hg => ?_
  rw [ancestor_later hrecords hparents (hx f hf), ancestor_later hrecords hparents (hy g hg)]

end Later

end Table

theorem Visit.repeatedBy_iff {first : Visit} {t : Table} {location : Option Location} {owner : Option CallableId} :
    first.repeatedBy t location owner = true ↔
      location.isSome ∧ first.location = location ∧ t.InLine first.owner owner := by
  simp only [repeatedBy, Bool.and_eq_true, beq_iff_eq, and_assoc, Table.InLine]
  refine and_congr_right fun _ => and_congr_right fun _ => ?_
  cases first.owner <;> cases owner <;> simp [Table.isAncestor_iff, or_assoc]

theorem Decision.eq_abort {d : Decision} (h : d ≠ .proceed) : d = .abort := by
  cases d with
  | proceed => exact absurd rfl h
  | abort => rfl

theorem Analysis.location_duplicateDiagnostic (name : String) (first : Visit) (location : Option Location) :
    (duplicateDiagnostic name first location).location = location := by
  unfold duplicateDiagnostic
  split <;> rfl

/-! ## The accepted request -/

/-- Where no callable was accepted twice, there is one accepted request for each. -/
theorem Session.accepted_unique (h : s.accepted.Nodup) {v w : Visit} (hv : v ∈ s.visits) (hw : w ∈ s.visits)
    (hva : v.outcome = .accepted) (hwa : w.outcome = .accepted) (heq : v.callable = w.callable) : v = w := by
  refine List.inj_on_of_nodup_map h (List.mem_filter.2 ⟨List.mem_reverse.2 hv, ?_⟩)
    (List.mem_filter.2 ⟨List.mem_reverse.2 hw, ?_⟩) heq
  · rw [hva]
    rfl
  · rw [hwa]
    rfl

namespace Turn

variable {first again : Turn} {roots : List Request}

/-- In the forest, the request of the one turn is the request of the other seen again: made at the same place, which is
known, by candidates of which one is the other or an ancestor of the other. -/
def Repeats (t : Table) (first again : Turn) : Prop :=
  again.request.location.isSome ∧ first.request.location = again.request.location ∧ t.InLine first.owner again.owner

/-- The session after a request for `f` was put aside with this outcome. -/
def aside (a : Turn) (f : CallableId) (outcome : Outcome) : Session Model :=
  { a.session with visits := ⟨f, a.request.location, a.session.traversal.candidates, outcome⟩ :: a.session.visits }

/-- The request for `f` is put aside as the accepted one seen again, and nothing is reported. -/
def Skipped (setup : Setup) (f : CallableId) (a : Turn) : Prop := a.run setup = .ok () (a.aside f .repeated)

/-- The request for `f` is reported as a duplicate at its location. If the answer is to proceed it is put aside then, and
otherwise the discovery from `s` fails with that, and this was its last report. -/
def ToldIn (setup : Setup) (s : Session Model) (f : CallableId) (a : Turn) : Prop :=
  ∃ d : Diagnostic, d.code = .doubleOptimization ∧ d.location = a.request.location ∧
    let answer := a.session.reporter.report d
    let told := { a.aside f (.duplicate answer.1) with reporter := answer.2 }
    (answer.1 = .proceed ∧ a.run setup = .ok () told) ∨
    (answer.1 = .abort ∧ ∃ name t, a.run setup = .error (.doubleOptimization f name) told ∧
      Analysis.discover setup s = .error (.doubleOptimization f name) t ∧ t.reporter = answer.2)

/-- A request that is reported is not put aside in silence. -/
theorem ToldIn.not_skipped {a : Turn} (h : a.ToldIn setup s f) : ¬ a.Skipped setup f := by
  intro hskipped
  obtain ⟨d, -, -, ⟨-, hrun⟩ | ⟨-, name, t, hrun, -⟩⟩ := h
  · rw [hskipped] at hrun
    have hreporter : a.session.reporter = (a.session.reporter.report d).2 :=
      congrArg Session.reporter (EStateM.Result.ok.inj hrun).2
    have hreports := congrArg (List.length ∘ Reporter.reports) hreporter
    simp [Reporter.reports_report] at hreports
  · rw [hskipped] at hrun
    cases hrun

theorem skipped_of_repeated {a : Turn} {v : Visit}
    (hcandidate : Evaluator.candidate? a.session.evaluator a.request.target = some f)
    (hv : a.session.accepted? f = some v)
    (h : v.repeatedBy a.session.table a.request.location a.session.traversal.current? = true) : a.Skipped setup f :=
  (Analysis.process_of_accepted setup _ hcandidate hv).trans (Analysis.again_of_repeated setup h)

theorem toldIn_of_not_repeated {a : Turn} {v : Visit}
    (hcandidate : Evaluator.candidate? a.session.evaluator a.request.target = some f)
    (hv : a.session.accepted? f = some v)
    (h : ¬ v.repeatedBy a.session.table a.request.location a.session.traversal.current? = true)
    (hpart : Passes (a.run setup) (Analysis.discover setup s)) : a.ToldIn setup s f := by
  have hrun : a.run setup = _ :=
    (Analysis.process_of_accepted setup _ hcandidate hv).trans (Analysis.again_of_not_repeated setup h)
  refine ⟨Analysis.duplicateDiagnostic (setup.names.resolve a.session.evaluator f) v a.request.location,
    Analysis.code_duplicateDiagnostic _ _ _, Analysis.location_duplicateDiagnostic _ _ _, ?_⟩
  split at hrun
  · next hproceed => exact .inl ⟨hproceed, hrun⟩
  · next hproceed =>
    obtain ⟨t, ht, hreporter⟩ := hpart.failed _ _ hrun
    exact .inr ⟨Decision.eq_abort hproceed, _, t, hrun, ht, hreporter⟩

/-- The request that was accepted for a callable is the one of the turn in which nobody had accepted it. -/
theorem accepted?_of_admits (hs : s.Ready m none) (hfirst : Among setup s.queue s first)
    (hadmits : first.session.Admits first.request f) (hagain : Among setup s.queue s again)
    (haccepted : Accepted again.session.visits f) :
    again.session.accepted? f =
      some ⟨f, first.request.location, first.session.traversal.candidates, .accepted⟩ := by
  have hnodup : (finalState (Analysis.discover setup s)).accepted.Nodup :=
    ((Analysis.discover_counts hs.counted).mono (fun _ _ h => h.nodup) fun _ _ h => h.nodup).final
  cases hv : again.session.accepted? f with
  | none => exact absurd haccepted (Session.accepted?_eq_none_iff.1 hv)
  | some v =>
    have hfound := List.find?_some hv
    simp only [Bool.and_eq_true, beq_iff_eq] at hfound
    have hlater : v ∈ (finalState (Analysis.discover setup s)).visits :=
      (Analysis.process_follows setup again.levels again.request again.session).final.visits.subset
        (List.mem_of_find?_eq_some hv) |> hagain.passes_discover.onward.visits.subset
    have hnoted := (Analysis.process_admits setup first.levels hadmits).final.visits.subset List.mem_cons_self
    have hnoted := hfirst.passes_discover.onward.visits.subset hnoted
    exact congrArg some (Session.accepted_unique hnodup hlater hnoted hfound.2 rfl hfound.1)

/-- A request for an accepted callable is taken for the accepted one seen again exactly if the forest at the end of
discovery says so. -/
theorem repeatedBy_iff_repeats (hs : s.Ready m none) (hfirst : Among setup s.queue s first)
    (hagain : Among setup s.queue s again) {v : Visit} (hv : again.session.accepted? f = some v)
    (hlocation : v.location = first.request.location) (henclosing : v.enclosing = first.session.traversal.candidates) :
    v.repeatedBy again.session.table again.request.location again.session.traversal.current? = true ↔
      Repeats (finalState (Analysis.discover setup s)).table first again := by
  have hready := hagain.ready hs
  have hextends := (Analysis.process_follows setup again.levels again.request again.session).final
  have hrecords : again.session.table.records <+: (finalState (Analysis.discover setup s)).table.records :=
    hextends.records.trans hagain.passes_discover.onward.records
  have howner : v.owner = first.owner := by
    rw [Visit.owner, henclosing]
    exact (hfirst.ready hs).current
  -- Both owners have a record by now, so what is added later does not change their ancestors.
  have hfirstRecorded : ∀ g, first.owner = some g → g ∈ again.session.table.owners := by
    intro g hg
    rw [← howner] at hg
    exact hready.mem_owners_iff.2
      (hready.accounted.enclosing v (List.mem_of_find?_eq_some hv) g (List.mem_of_mem_head? hg))
  have hagainRecorded : ∀ g, again.owner = some g → g ∈ again.session.table.owners := by
    intro g hg
    rw [← hready.current] at hg
    exact hready.grounded.recorded g (List.mem_of_mem_head? hg)
  have hparents : ∀ r ∈ again.session.table.records, ∀ p, r.parent = some p → p ∈ again.session.table.owners :=
    fun r hr p hp => hready.mem_owners_iff.2 (hready.accounted.parents r hr p hp)
  rw [Visit.repeatedBy_iff, howner, hlocation, hready.current, Repeats,
    Table.inLine_later hrecords hparents hfirstRecorded hagainRecorded]

end Turn

namespace Analysis

open Turn

/-- Duplicates are classified as the forest at the end of discovery says, from a fresh queue, traversal and table and
whatever is nested or called in whatever order. A request for a callable that was accepted is not the first one: that had
a turn of its own. It is skipped without any report exactly if it was made at the same place as the first one, which is
known, and by a candidate that is the first one's, or an ancestor or a descendant of it in the forest. Otherwise it is
reported at its location, and discovery goes on only if the answer is to proceed. So a candidate that calls its descendant,
directly or not, is never told of what the descendant registered and had accepted. -/
theorem duplicates_follow_final_forest (setup : Setup) (m : Model) (roots : List Request) (reporter : Reporter)
    (placeholders : Placeholders) (again : Turn) (f : CallableId)
    (hagain : Among setup roots { Session.start m roots reporter with placeholders } again)
    (hcandidate : Evaluator.candidate? again.session.evaluator again.request.target = some f)
    (haccepted : Accepted again.session.visits f) :
    let s := { Session.start m roots reporter with placeholders }
    let forest := (finalState (discover setup s)).table
    (∃ first, Among setup roots s first ∧ first.session.Admits first.request f) ∧
    ∀ first, Among setup roots s first → first.session.Admits first.request f →
      (again.Skipped setup f ↔ Repeats forest first again) ∧
      (¬ Repeats forest first again → again.ToldIn setup s f) ∧
      ∀ o₀ o site, first.owner = some o₀ → again.owner = some o → forest.Ancestor o o₀ →
        first.request.location = some site → again.request.location = some site → again.Skipped setup f := by
  intro s forest
  have hs : s.Ready m none := .start m roots reporter placeholders
  have hpart : Passes (again.run setup) (discover setup s) := hagain.passes_discover
  -- The decision is taken with the table as it is then, and it is that of the forest.
  have hdecides : ∀ first, Among setup roots s first → first.session.Admits first.request f →
      (Repeats forest first again → again.Skipped setup f) ∧ (¬ Repeats forest first again → again.ToldIn setup s f) := by
    intro first hfirst hadmits
    have hv := accepted?_of_admits hs hfirst hadmits hagain haccepted
    have hiff := repeatedBy_iff_repeats hs hfirst hagain hv rfl rfl
    exact ⟨fun h => skipped_of_repeated hcandidate hv (hiff.2 h),
      fun h => toldIn_of_not_repeated hcandidate hv (mt hiff.1 h) hpart⟩
  refine ⟨?_, fun first hfirst hadmits => ⟨⟨fun hskipped => ?_, (hdecides first hfirst hadmits).1⟩,
    (hdecides first hfirst hadmits).2, fun o₀ o site ho₀ ho hancestor hsite₀ hsite => ?_⟩⟩
  · -- The request accepted for `f` was noted, so it had a turn.
    obtain ⟨v, hv, rfl, hacc⟩ := haccepted
    have hlater : v ∈ (finalState (drain setup roots s)).visits :=
      hagain.passes.onward.visits.subset ((process_follows setup _ _ _).final.visits.subset hv)
    rcases exists_among setup roots s v hlater with hstart | ⟨first, hfirst, hnotes⟩
    · cases hstart
    · exact ⟨first, hfirst, hnotes.candidate, hnotes.outcome.1 hacc⟩
  · by_contra hrepeats
    exact ((hdecides first hfirst hadmits).2 hrepeats).not_skipped hskipped
  · refine (hdecides first hfirst hadmits).1 ⟨?_, hsite₀.trans hsite.symm, o₀, o, ho₀, ho, .inr (.inr hancestor)⟩
    rw [hsite]
    rfl

/-- A function that registers a second one and then calls it, which registers a third one. -/
def inlining : Model :=
  let function (name : String) (body : Body) : Function := ⟨⟨some name, [], ⟨"sample", .dummy⟩⟩, body⟩
  { Model.new "sample" with functions :=
    [function "outer" (.op (.register (.function ⟨1⟩) none (.ofLine 1)) (.op (.call ⟨1⟩ (.ofLine 2)) .done)),
      function "inner" (.op (.register (.function ⟨2⟩) none (.ofLine 3)) .done), function "last" .done] }

/-- The outer function registers the third one as well, through the call, but after the inner one, whose capture had it
accepted by then. The outer one is its parent, so that is no duplicate. -/
theorem duplicates_follow_final_forest_inlining :
    ∃ again, Among ⟨.empty, 3⟩ [.ofCallable ⟨0⟩] (.start inlining [.ofCallable ⟨0⟩] (.new ⟨false, false⟩ none [])) again ∧
      again.owner = some ⟨0⟩ ∧ Accepted again.session.visits ⟨2⟩ ∧ again.Skipped ⟨.empty, 3⟩ ⟨2⟩ := by
  let setup : Setup := ⟨.empty, 3⟩
  let roots : List Request := [.ofCallable ⟨0⟩]
  let s : Session Model := .start inlining roots (.new ⟨false, false⟩ none [])
  have hs : s.Ready inlining none := .start inlining roots _ .none
  have hvisits : ((finalState (drain setup roots s)).visits.any fun v => v.callable == ⟨2⟩ && v.enclosing == [⟨0⟩] &&
      v.outcome == .repeated && v.location.isSome && (finalState (drain setup roots s)).visits.any fun w =>
        w.callable == ⟨2⟩ && w.enclosing == [⟨1⟩, ⟨0⟩] && w.outcome == .accepted && w.location == v.location) = true := by
    decide +kernel
  have hancestor : (finalState (discover setup s)).table.isAncestor ⟨0⟩ ⟨1⟩ = true := by decide +kernel
  simp only [List.any_eq_true, Bool.and_eq_true, beq_iff_eq] at hvisits
  obtain ⟨v, hv, ⟨⟨⟨hvf, hvenclosing⟩, hvoutcome⟩, hknown⟩, w, hw, ⟨⟨hwf, hwenclosing⟩, hwoutcome⟩, hsite⟩ := hvisits
  obtain ⟨site, hlocation⟩ := Option.isSome_iff_exists.1 hknown
  -- Both requests that were noted had turns, and who registered them is who was in progress then.
  obtain ⟨again, hagain, hnotes⟩ := (exists_among setup roots s v hv).resolve_left List.not_mem_nil
  obtain ⟨first, hfirst, hnotes'⟩ := (exists_among setup roots s w hw).resolve_left List.not_mem_nil
  have howner : again.owner = some ⟨0⟩ := by
    rw [← (hagain.ready hs).current, Traversal.current?, ← hnotes.enclosing, hvenclosing]
    rfl
  have howner' : first.owner = some ⟨1⟩ := by
    rw [← (hfirst.ready hs).current, Traversal.current?, ← hnotes'.enclosing, hwenclosing]
    rfl
  have haccepted : Accepted again.session.visits ⟨2⟩ := by
    by_contra hnew
    rw [← hvf] at hnew
    cases hvoutcome.symm.trans (hnotes.outcome.2 hnew)
  have hadmits : first.session.Admits first.request ⟨2⟩ :=
    ⟨hwf ▸ hnotes'.candidate, hwf ▸ hnotes'.outcome.1 hwoutcome⟩
  obtain ⟨-, hall⟩ := duplicates_follow_final_forest setup inlining roots (.new ⟨false, false⟩ none []) .none again ⟨2⟩
    hagain (hvf ▸ hnotes.candidate) haccepted
  obtain ⟨-, -, hskips⟩ := hall first hfirst hadmits
  exact ⟨again, hagain, howner, haccepted, hskips ⟨1⟩ ⟨0⟩ site howner' howner (Table.isAncestor_iff.1 hancestor)
    (hnotes'.location.symm.trans (hsite.trans hlocation)) (hnotes.location.symm.trans hlocation)⟩

end Analysis

end Independence
