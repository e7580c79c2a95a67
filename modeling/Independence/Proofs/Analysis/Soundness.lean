import Independence.Proofs.Analysis.Conflicts
import Independence.Analysis.Checker
/-!
# Independence

A run without conflicts proves its records independent: the effects of other records on top of those of its ancestors
make no difference to the evaluation of a candidate, as long as they are not those of an ancestor or of a candidate
that it calls itself. What an evaluation reads it was seen to read in its replay, and no record in question writes it.
-/

namespace Independence

open Evaluator (evaluateUnder)

variable {m₀ m n n' : Model} {t : Table} {b : Record} {above : List Record} {es : List Event}

/-! ## Successful runs -/

theorem Analysis.reportConflicts_nil {e : Type} [Evaluator e] (s : Session e) : reportConflicts [] s = .ok .proceed s := rfl

/-- Conflicts end in an abort. -/
theorem Analysis.reportConflicts_cons {e : Type} [Evaluator e] (c : Conflict) (cs : List Conflict) (s : Session e) :
    (reportConflicts (c :: cs)).Ends s (fun d _ => d = .abort) fun _ _ => True := by
  refine Ends.bind (Q := fun _ _ => True) (Ends.forM (I := fun _ => True) (fun d _ t _ => ?_) trivial) fun _ _ _ => rfl
  exact Ends.bind (Q := fun _ _ => True) (Ends.report fun _ _ => trivial) fun _ _ _ => trivial

/-- A successful run went through both phases, and verification found nothing. -/
theorem Checker.run_ok {e : Type} [Evaluator e] {c : Checker e} {roots : List Request} {v : Verified}
    (h : (c.run roots).1 = .ok v) : ∃ s s',
      Analysis.discover c.setup (c.session roots) = .ok () s ∧ Analysis.verify c.setup s = .ok [] s' ∧
        v.table = s'.table ∧ (c.run roots).2.evaluator = s'.evaluator := by
  unfold run at h ⊢
  cases ha : Analysis.analyse c.setup (c.session roots) with
  | error f s => rw [ha] at h; cases h
  | ok u s' =>
    rw [ha] at h
    cases h
    obtain ⟨⟨⟩, s, hd, ha⟩ := Analysis.of_bind_ok ha
    obtain ⟨conflicts, t, hv, ha⟩ := Analysis.of_bind_ok ha
    obtain ⟨decision, t', hr, ha⟩ := Analysis.of_bind_ok ha
    cases conflicts with
    | nil =>
      rw [Analysis.reportConflicts_nil] at hr
      cases hr
      cases ha
      exact ⟨s, s', hd, hv, rfl, rfl⟩
    | cons conflict conflicts =>
      have habort : decision = .abort := (Analysis.reportConflicts_cons conflict conflicts t).of_ok hr
      rw [habort] at ha
      cases ha

/-! ## Events with other numbers -/

theorem enter_mem_map_rename {f : ObjectId → ObjectId} {g : CallableId} :
    .enter g ∈ es.map (Event.rename f) ↔ .enter g ∈ es := by
  rw [List.mem_map]
  constructor
  · rintro ⟨e, he, heq⟩
    cases e <;> cases heq
    exact he
  · exact fun h => ⟨_, h, rfl⟩

/-- Reads of old objects are the same in every evaluation of a call. -/
theorem read_mem_map_shift {x : Binding} {l : Option Location} {k : Nat} (hx : x.object.index < k) (d : Nat) :
    .read x l ∈ es.map (Event.rename (.shift k d)) ↔ .read x l ∈ es := by
  have hsame : x.rename (.shift k d) = x := congrArg (Binding.mk · x.key) (ObjectId.shift_of_lt hx)
  rw [List.mem_map]
  constructor
  · rintro ⟨e, he, heq⟩
    cases e with
    | read y l' =>
      simp only [Event.rename, Event.read.injEq] at heq
      obtain ⟨hy, rfl⟩ := heq
      have hyx : y = x := (Binding.rename_inj (ObjectId.shift_injective k d)).1 (hy.trans hsame.symm)
      exact hyx ▸ he
    | _ => cases heq
  · exact fun h => ⟨_, h, by rw [Event.rename, hsame]⟩

/-! ## What verification rules out -/

/-- Where verification found nothing, the replays had no hits. -/
theorem Analysis.no_hit {setup : Setup} {s s' : Session Model} (hm : m₀.Under [] s.evaluator)
    (hsimple : ∀ r ∈ s.table.records, ∃ names, r.signature.simpleNames = .ok names)
    (hv : verify setup s = .ok [] s') : s'.table = s.table ∧ s.evaluator.Under [] s'.evaluator ∧
      ∃ ess, List.Forall₂ (EventsOf m₀ s.table s.evaluator) s.table.records ess ∧ ∀ p l, ¬ Hit s.table ess p l := by
  obtain ⟨htable, hlater, ess, hess, hnil⟩ := (verify_ends setup hm hsimple).of_ok hv
  refine ⟨htable, hlater, ess, hess, fun p l hp => ?_⟩
  have hexact := Table.exactConflicts (setup.names.resolve s'.evaluator) (within_isSome_of_eventsOf hess)
  rw [← hnil] at hexact
  obtain ⟨c, hc, -⟩ := hexact.all p l hp
  cases hc

/-- Without a hit, no record writes what the replay of another one reads, unless it is that of an ancestor or of a
candidate whose body was entered. -/
theorem not_mem_writes_of_no_hit {ess : List (List Event)} {a : Record} {x : Binding} {l : Location}
    (hno : ∀ p l, ¬ Hit t ess p l) {i j : Nat} (ha : t.records[i]? = some a) (hb : t.records[j]? = some b)
    (hes : ess[j]? = some es) (hwithin : ∀ a ∈ sights t [] es, a.within.isSome) (hne : a.owner ≠ b.owner)
    (hanc : ¬ t.Ancestor a.owner b.owner) (henter : .enter a.owner ∉ es) (hread : .read x (some l) ∈ es) :
    x ∉ a.effects.writes := by
  intro hx
  obtain ⟨sight, hsight, hlook, hl⟩ := exists_sight_of_read hread []
  obtain ⟨g, hg⟩ := Option.isSome_iff_exists.1 (hwithin sight hsight)
  obtain ⟨k, hk⟩ := List.getElem?_of_mem (mem_accesses.2 hsight)
  refine hno ⟨i, j, k⟩ l ⟨a, b, es, sight, ha, hb, hes, hk, hl, hne, hanc, ⟨g, hg, ?_⟩, ?_⟩
  · rintro rfl
    exact henter (((within_of_mem_sights hsight hg).2).resolve_left (by simp))
  · rw [hlook]
    exact hx

/-- Without a hit, a call evaluated later under the ancestors of its record reads nothing that another record writes,
unless that one is of an ancestor or of a candidate whose body the evaluation enters. -/
theorem Discovering.not_mem_writes (hw : m₀.WellFormed) (hd : Discovering m₀ [] t m) {ess : List (List Event)}
    (hess : List.Forall₂ (EventsOf m₀ t m) t.records ess) (hno : ∀ p l, ¬ Hit t ess p l) {a : Record}
    (ha : a ∈ t.records) (hb : b ∈ t.records) (hne : a.owner ≠ b.owner) (hanc : ¬ t.Ancestor a.owner b.owner) {k : Model}
    (hk : m₀.Under ((t.ancestors b.owner).map Record.effects) k) (hmk : m.nextObject ≤ k.nextObject) {call : Call}
    (hcallee : call.callee = b.owner) (hlocation : call.location = b.signature.location)
    (henter : .enter a.owner ∉ (finalState (k.traceOf call)).1) {x : Binding} {l : Option Location}
    (hread : .read x l ∈ (finalState (k.traceOf call)).1) : x ∉ a.effects.writes := by
  intro hx
  obtain ⟨above, n, n', hc, hn⟩ := hd.captured b hb
  obtain ⟨es, hes⟩ := hc.reproduces hw
  have hchain := hc.effects_ancestors hb
  -- The binding is one of an old object: a new one is not written by a record.
  obtain ⟨hold, hloc⟩ := Model.within_traceOf (hk.functions ▸ hw.bodies) call _ hread
  have hxm : x.object.index < m.nextObject := hd.below hw ha x hx
  have hx₀ : m₀.HandedOut x.object := hold.resolve_right (by omega)
  have hxn : x.object.index < n.nextObject := Nat.lt_of_lt_of_le hx₀ hc.under.le_next
  obtain ⟨l, rfl⟩ := Option.isSome_iff_exists.1 hloc
  -- The replay of the record read it as well, and entered the same bodies.
  obtain ⟨e, k', htrace, -⟩ := hes k (hchain ▸ hk) (Nat.le_trans hn hmk) call hcallee hlocation
  rw [htrace] at hread henter
  obtain ⟨j, hj⟩ := List.getElem?_of_mem hb
  obtain ⟨i, hi⟩ := List.getElem?_of_mem ha
  obtain ⟨es', hes', r, call', hr, hmr, hcallee', hlocation', rfl⟩ := exists_of_getElem?_left hess hj
  obtain ⟨e', r', htrace', -⟩ := hes r (hchain ▸ hr) (Nat.le_trans hn hmr) call' hcallee' hlocation'
  have hwithin := within_isSome_of_eventsOf hess _ (List.mem_of_getElem? hes')
  rw [htrace'] at hes' hwithin
  have hread' := (read_mem_map_shift hxn (r.nextObject - n.nextObject)).2 ((read_mem_map_shift hxn _).1 hread)
  refine not_mem_writes_of_no_hit hno hi hj hes' hwithin hne hanc (fun h => henter ?_) hread' hx
  exact enter_mem_map_rename.2 (enter_mem_map_rename.1 h)

/-! ## The sample -/

/-- A result that was seen. -/
theorem exists_ok_of_any {ε α : Type} {x : Except ε α} {p : α → Bool} (h : x.toOption.any p = true) :
    ∃ a, x = .ok a ∧ p a = true := by
  cases x with
  | ok a => exact ⟨a, rfl, h⟩
  | error e => cases h

/-- Whether an evaluation registers nothing and enters no body but that of `f`. -/
def keepsTo (f : CallableId) (es : List Event) : Bool := es.all fun
  | .register _ => false
  | .enter g => g == f
  | _ => true

theorem not_enter_of_keepsTo {f g : CallableId} {es : List Event} (h : keepsTo f es = true) (hne : g ≠ f) :
    .enter g ∉ es := by
  intro henter
  have hg := List.all_eq_true.1 h _ henter
  exact hne (eq_of_beq hg)

namespace Checker

/-- The sample under the default settings. -/
def sample : Checker Model := ⟨Model.sample, {}, .empty, none, []⟩

/-- A run on the sample finds no conflict, and the second function keeps to itself. -/
theorem run_sample : ∃ (v : Verified) (c : Checker Model) (b a : Record),
    sample.run [.ofCallable ⟨0⟩, .ofCallable ⟨2⟩] = (.ok v, c) ∧ v.table.get? ⟨1⟩ = some b ∧ v.table.get? ⟨2⟩ = some a ∧
    (v.table.ancestors ⟨1⟩).length = 1 ∧ v.table.isAncestor ⟨2⟩ ⟨1⟩ = false ∧ ∀ call q,
      Placeholders.none.synthesize ⟨1⟩ b.signature b.candidate.request.shape = .ok (call, q) →
      keepsTo ⟨1⟩ (evaluateUnder ((v.table.ancestors ⟨1⟩).map Record.effects) .trace call [] c.evaluator).1.2 = true := by
  have h : ((sample.run [.ofCallable ⟨0⟩, .ofCallable ⟨2⟩]).1.toOption.any fun v =>
      (v.table.get? ⟨1⟩).any fun b => (v.table.get? ⟨2⟩).isSome &&
        (v.table.ancestors ⟨1⟩).length == 1 && !v.table.isAncestor ⟨2⟩ ⟨1⟩ &&
        (Placeholders.none.synthesize ⟨1⟩ b.signature b.candidate.request.shape).toOption.any fun result =>
          keepsTo ⟨1⟩ (evaluateUnder ((v.table.ancestors ⟨1⟩).map Record.effects) .trace result.1 []
            (sample.run [.ofCallable ⟨0⟩, .ofCallable ⟨2⟩]).2.evaluator).1.2) = true := by decide +kernel
  obtain ⟨v, hrun, h⟩ := exists_ok_of_any h
  obtain ⟨b, hb, h⟩ := (Option.any_eq_true _ _).1 h
  simp only [Bool.and_eq_true, Bool.not_eq_true', beq_iff_eq] at h
  obtain ⟨⟨⟨ha, hlength⟩, hanc⟩, hkeeps⟩ := h
  obtain ⟨a, ha⟩ := Option.isSome_iff_exists.1 ha
  refine ⟨v, _, b, a, Prod.ext hrun rfl, hb, ha, hlength, hanc, fun call q hsyn => ?_⟩
  rw [hsyn] at hkeeps
  exact hkeeps

end Checker

/-! ## Soundness -/

section Verified
variable {c : Checker Model} (hw : c.evaluator.WellFormed) {roots : List Request} {v : Verified}
  (hrun : (c.run roots).1 = .ok v)
include hw hrun

/-- The table of a run without conflicts is one that discovery left, and its replays had no hits. -/
theorem Checker.discovering_of_run : ∃ m ess, Discovering c.evaluator [] v.table m ∧
    m.Under [] (c.run roots).2.evaluator ∧ List.Forall₂ (EventsOf c.evaluator v.table m) v.table.records ess ∧
      ∀ p l, ¬ Hit v.table ess p l := by
  obtain ⟨s, s', hd, hv, htable, hevaluator⟩ := run_ok hrun
  have hdisc : Discovering c.evaluator [] s.table s.evaluator :=
    ((Analysis.discover_ends hw c.setup roots _).of_ok hd).discovering
  obtain ⟨htable', hlater, ess, hess, hno⟩ := Analysis.no_hit hdisc.under (fun r hr => hdisc.simple hr) hv
  rw [htable, htable', hevaluator]
  exact ⟨s.evaluator, ess, hdisc, hlater, hess, hno⟩

/-- After a run without conflicts, who reads in an evaluation under the commits of its ancestors what a record writes
is that record itself, or is nested in it, or calls it. -/
theorem Checker.reads_own_of_run (hb : b ∈ v.table.records) {p q : Placeholders} {call : Call}
    (hsyn : p.synthesize b.owner b.signature b.candidate.request.shape = .ok (call, q))
    (hm : (c.run roots).2.evaluator.Under [] m) {x : Binding} {l : Option Location}
    (hread : .read x l ∈ (evaluateUnder ((v.table.ancestors b.owner).map Record.effects) .trace call [] m).1.2)
    {a : Record} (ha : a ∈ v.table.records) (hx : x ∈ a.effects.writes) :
    a.owner = b.owner ∨ v.table.Ancestor a.owner b.owner ∨
      .enter a.owner ∈ (evaluateUnder ((v.table.ancestors b.owner).map Record.effects) .trace call [] m).1.2 := by
  obtain ⟨m', ess, hdisc, hlater, hess, hno⟩ := discovering_of_run hw hrun
  obtain ⟨-, hcallee, hlocation⟩ := Placeholders.of_synthesize hsyn
  have hlater' := hlater.later hm
  obtain ⟨k, hk, hnext, hout, -, -⟩ :=
    (hdisc.under.later hlater').evaluateUnder ((v.table.ancestors b.owner).map Record.effects) call
  rw [hout, Evaluator.events_outcome] at hread ⊢
  by_contra hnot
  simp only [not_or] at hnot
  exact hdisc.not_mem_writes hw hess hno ha hb hnot.1 hnot.2.1 hk (hnext ▸ hlater'.le_next) hcallee hlocation
    hnot.2.2 hread hx

end Verified

/-- After a run without conflicts, a candidate evaluated under the commits of its ancestors has the same effects with
the effects of other records committed on top, as long as these belong to neither an ancestor nor a candidate whose
body the evaluation enters. -/
theorem independence_sound {c : Checker Model} (hw : c.evaluator.WellFormed) {roots : List Request} {v : Verified}
    (hrun : (c.run roots).1 = .ok v) {b : Record} (hb : b ∈ v.table.records) (p : Placeholders) :
    ∃ call q, p.synthesize b.owner b.signature b.candidate.request.shape = .ok (call, q) ∧
      ∀ (m : Model), (c.run roots).2.evaluator.Under [] m → ∀ others : List Record,
      (∀ a ∈ others, a ∈ v.table.records ∧ a.owner ≠ b.owner ∧ ¬ v.table.Ancestor a.owner b.owner ∧ .enter a.owner ∉
        (evaluateUnder ((v.table.ancestors b.owner).map Record.effects) .trace call [] m).1.2) →
      ∀ {σ : Type} (o : Observer σ), o.Permissive → ∀ s : σ, ∃ e,
        (evaluateUnder ((v.table.ancestors b.owner).map Record.effects) o call s m).1.1 = .ok e ∧
        (evaluateUnder ((v.table.ancestors b.owner).map Record.effects ++ others.map Record.effects) o call s m).1.1 =
          .ok e := by
  obtain ⟨m', ess, hdisc, hlater, -, -⟩ := Checker.discovering_of_run hw hrun
  obtain ⟨above, n, n', hc, hn⟩ := hdisc.captured b hb
  obtain ⟨names, hnames⟩ := hc.simple
  obtain ⟨call, q, hsyn, hcallee, hlocation⟩ :=
    Placeholders.synthesize_of_simple hnames p b.owner b.candidate.request.shape
  refine ⟨call, q, hsyn, fun m hm others hothers σ o ho u => ?_⟩
  have hlater' : m'.Under [] m := hlater.later hm
  obtain ⟨k, hk, hknext, hkout, -, -⟩ :=
    (hdisc.under.later hlater').evaluateUnder ((v.table.ancestors b.owner).map Record.effects) call
  obtain ⟨k', hk', hknext', hkout', -, -⟩ := (hdisc.under.later hlater').evaluateUnder
    ((v.table.ancestors b.owner).map Record.effects ++ others.map Record.effects) call
  -- The effects on top write nothing that the evaluation reads.
  have hreads : ∀ (x : Binding) (l : Option Location), .read x l ∈ (finalState (k.traceOf call)).1 →
      ∀ f ∈ others.map Record.effects, x ∉ f.writes := by
    intro x l hread f hf hx
    obtain ⟨a, ha, rfl⟩ := List.mem_map.1 hf
    obtain ⟨hmem, hne, hanc, henter⟩ := hothers a ha
    rw [← Evaluator.events_outcome, ← hkout] at hread
    obtain h | h | h := Checker.reads_own_of_run hw hrun hb hsyn hm hread hmem hx
    · exact hne h
    · exact hanc h
    · exact henter h
  have hsame := hk.traceOf_unaffected hw hk' (hknext'.trans hknext.symm) call hreads
  -- So it takes the same course, and that is the one of the capture.
  obtain ⟨es, hes⟩ := hc.reproduces hw
  have hnk : n'.nextObject ≤ k.nextObject := hknext ▸ Nat.le_trans hn hlater'.le_next
  obtain ⟨e, m', htrace, -⟩ := hes k (hc.effects_ancestors hb ▸ hk) hnk call hcallee hlocation
  rw [htrace] at hsame
  refine ⟨e, ?_, ?_⟩
  · rw [Model.evaluateUnder_of_permissive ho]
    simp only [hkout, htrace]
    rfl
  · rw [Model.evaluateUnder_of_permissive ho]
    simp only [hkout', hsame]
    rfl

/-- In a run on the sample the third function makes no difference to the second one, which runs under the commit of
the first. -/
theorem independence_sound_sample :
    ∃ (v : Verified) (b a : Record) (call : Call) (q : Placeholders) (e : Effects),
      (Checker.sample.run [.ofCallable ⟨0⟩, .ofCallable ⟨2⟩]).1 = .ok v ∧ a ∈ v.table.records ∧ b ∈ v.table.records ∧
      a.owner = ⟨2⟩ ∧ b.owner = ⟨1⟩ ∧ (v.table.ancestors b.owner).length = 1 ∧
      Placeholders.none.synthesize b.owner b.signature b.candidate.request.shape = .ok (call, q) ∧
      (evaluateUnder ((v.table.ancestors b.owner).map Record.effects) .silent call ()
        (Checker.sample.run [.ofCallable ⟨0⟩, .ofCallable ⟨2⟩]).2.evaluator).1.1 = .ok e ∧
      (evaluateUnder ((v.table.ancestors b.owner).map Record.effects ++ [a].map Record.effects) .silent call ()
        (Checker.sample.run [.ofCallable ⟨0⟩, .ofCallable ⟨2⟩]).2.evaluator).1.1 = .ok e := by
  obtain ⟨v, c, b, a, hrun, hb, ha, hlength, hanc, hkeeps⟩ := Checker.run_sample
  have hok : (Checker.sample.run [.ofCallable ⟨0⟩, .ofCallable ⟨2⟩]).1 = .ok v := by rw [hrun]
  have hbo := Table.owner_of_get? hb
  have hao := Table.owner_of_get? ha
  obtain ⟨call, q, hsyn, hindep⟩ := independence_sound Model.wellFormed_sample hok (Table.mem_of_get? hb) .none
  have hothers : ∀ r ∈ [a], r ∈ v.table.records ∧ r.owner ≠ b.owner ∧ ¬ v.table.Ancestor r.owner b.owner ∧
      .enter r.owner ∉ (evaluateUnder ((v.table.ancestors b.owner).map Record.effects) .trace call []
        (Checker.sample.run [.ofCallable ⟨0⟩, .ofCallable ⟨2⟩]).2.evaluator).1.2 := by
    intro r hr
    obtain rfl := List.mem_singleton.1 hr
    rw [← Table.isAncestor_iff, hrun, hao, hbo, hanc]
    exact ⟨Table.mem_of_get? ha, by decide, Bool.false_ne_true,
      not_enter_of_keepsTo (hkeeps call q (hbo ▸ hsyn)) (by decide)⟩
  obtain ⟨e, hbare, htop⟩ := hindep _ (.refl _) [a] hothers .silent (fun _ _ => rfl) ()
  exact ⟨v, b, a, call, q, e, hok, Table.mem_of_get? ha, Table.mem_of_get? hb, hao, hbo, hbo ▸ hlength, hsyn, hbare, htop⟩

end Independence
