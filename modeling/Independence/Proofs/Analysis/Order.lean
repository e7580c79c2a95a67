import Mathlib.Data.List.Induction
import Independence.Proofs.Analysis.Soundness
/-!
# Orders of commits

What the effects of several records leave when they are committed one after the other depends on their order only at
bindings to which two of them write different values. Verification lets such records pass, since it compares what is
written with what is read and enumerated, but nobody else sees these bindings.
-/

namespace Independence

open Evaluator (evaluateUnder)

variable {es : List Effects} {rs : List Record} {b : Binding} {x : Option Value}

/-! ## The last write to a binding -/

/-- Both effects write the binding, and not with the same value. -/
def Effects.Clash (e f : Effects) (b : Binding) : Prop :=
  ∃ s t, e.writes[b]? = some s ∧ f.writes[b]? = some t ∧ s.value ≠ t.value

namespace Effects

theorem overlay_of_get? {e : Effects} {s : WriteSite} (h : e.writes[b]? = some s) (v : Binding → Option Value) :
    e.overlay v b = s.value := by
  simp [overlay, h]

theorem Clash.mem_writes {e f : Effects} (h : e.Clash f b) : b ∈ e.writes ∧ b ∈ f.writes := by
  obtain ⟨s, t, hs, ht, -⟩ := h
  simp [Std.ExtTreeMap.mem_iff_isSome_getElem?, hs, ht]

theorem not_clash_self {e : Effects} : ¬ e.Clash e b := by
  rintro ⟨s, t, hs, ht, hne⟩
  rw [hs] at ht
  cases ht
  exact hne rfl

/-- A binding gets the value on which those that write it agree. -/
theorem overlayAll_of_agree (hex : ∃ e ∈ es, b ∈ e.writes)
    (hagree : ∀ e ∈ es, ∀ s, e.writes[b]? = some s → s.value = x) (v : Binding → Option Value) :
    overlayAll es v b = x := by
  induction es using List.reverseRecOn with
  | nil =>
    obtain ⟨e, he, -⟩ := hex
    cases he
  | append_singleton es e ih =>
    rw [overlayAll_concat]
    cases he : e.writes[b]? with
    | some s =>
      rw [overlay_of_get? he]
      exact hagree e (by simp) s he
    | none =>
      have hn : b ∉ e.writes := by simp [Std.ExtTreeMap.mem_iff_isSome_getElem?, he]
      rw [overlay_of_not_mem _ hn]
      refine ih ?_ fun f hf => hagree f (by simp [hf])
      obtain ⟨f, hf, hb⟩ := hex
      rcases List.mem_append.1 hf with hf | hf
      · exact ⟨f, hf, hb⟩
      · rw [List.mem_singleton.1 hf] at hb
        exact absurd hb hn

end Effects

/-! ## Committing records in some order -/

namespace Heap

/-- The heap after the effects of records are committed one after the other. -/
def commitAll (h : Heap) (rs : List Record) : Heap := rs.foldl (fun h r => (h.commit r.effects).1) h

theorem get?_commitAll (h : Heap) (rs : List Record) :
    (h.commitAll rs).get? = Effects.overlayAll (rs.map Record.effects) h.get? := by
  induction rs generalizing h with
  | nil => rfl
  | cons r rs ih =>
    have hcons : h.commitAll (r :: rs) = (h.commit r.effects).1.commitAll rs := rfl
    rw [hcons, ih, get?_commit]
    rfl

/-- Committing the records gives the binding the same value in every order. -/
def Settled (h : Heap) (rs : List Record) (b : Binding) : Prop :=
  ∀ qs qs' : List Record, qs.Perm rs → qs'.Perm rs → (h.commitAll qs).get? b = (h.commitAll qs').get? b

/-- Some order of the records ends with a given one, and with what it writes. -/
theorem exists_perm_commitAll (h : Heap) {r : Record} (hr : r ∈ rs) {s : WriteSite}
    (hs : r.effects.writes[b]? = some s) : ∃ qs : List Record, qs.Perm rs ∧ (h.commitAll qs).get? b = s.value := by
  obtain ⟨before, after, rfl⟩ := List.append_of_mem hr
  refine ⟨(before ++ after) ++ [r], ?_, ?_⟩
  · exact (List.perm_append_singleton r (before ++ after)).trans List.perm_middle.symm
  · rw [get?_commitAll, List.map_append, List.map_singleton, Effects.overlayAll_concat, Effects.overlay_of_get? hs]

/-- The order of the records matters at exactly the bindings to which two of them write different values. -/
theorem settled_iff (h : Heap) :
    h.Settled rs b ↔ ∀ q ∈ rs, ∀ r ∈ rs, ¬ q.effects.Clash r.effects b := by
  constructor
  · rintro hsettled q hq r hr ⟨s, t, hs, ht, hne⟩
    obtain ⟨qs, hqs, hvalue⟩ := h.exists_perm_commitAll hq hs
    obtain ⟨qs', hqs', hvalue'⟩ := h.exists_perm_commitAll hr ht
    exact hne (hvalue.symm.trans ((hsettled qs qs' hqs hqs').trans hvalue'))
  -- If some record writes the binding, its value is there after every order; else it is that of the heap.
  · intro hno
    by_cases hex : ∃ r ∈ rs, b ∈ r.effects.writes
    · obtain ⟨r, hr, hb⟩ := hex
      obtain ⟨s, hs⟩ := Option.isSome_iff_exists.1 (Std.ExtTreeMap.mem_iff_isSome_getElem?.1 hb)
      have hlast : ∀ qs : List Record, qs.Perm rs → (h.commitAll qs).get? b = s.value := by
        intro qs hqs
        rw [get?_commitAll]
        refine Effects.overlayAll_of_agree ⟨r.effects, List.mem_map_of_mem (hqs.mem_iff.2 hr), hb⟩ ?_ _
        intro e he t ht
        obtain ⟨q, hq, rfl⟩ := List.mem_map.1 he
        by_contra hne
        exact hno q (hqs.mem_iff.1 hq) r hr ⟨t, s, ht, hs, hne⟩
      intro qs qs' hqs hqs'
      rw [hlast qs hqs, hlast qs' hqs']
    · have hkept : ∀ qs : List Record, qs.Perm rs → (h.commitAll qs).get? b = h.get? b := by
        intro qs hqs
        rw [get?_commitAll]
        refine Effects.overlayAll_of_not_mem _ fun e he hb => ?_
        obtain ⟨q, hq, rfl⟩ := List.mem_map.1 he
        exact hex ⟨q, hqs.mem_iff.1 hq, hb⟩
      intro qs qs' hqs hqs'
      rw [hkept qs hqs, hkept qs' hqs']

end Heap

/-! ## Two writers -/

namespace Checker

/-- Two functions that write different values to the same binding and do nothing else. -/
def twoWriters : Checker Model :=
  let writer (name : String) (value : Bool) : Function :=
    ⟨⟨some name, [], ⟨"sample", .dummy⟩⟩, .op (.write (.object ⟨0⟩) ⟨0⟩ (.primitive (.bool value)) (.ofLine 1)) .done⟩
  let program : Model := { Model.new "sample" with
    functions := [writer "first" true, writer "second" false]
    heap := Heap.empty.addObject ⟨0⟩
    nextObject := 1 }
  ⟨program, {}, .empty, none, []⟩

theorem wellFormed_twoWriters : twoWriters.evaluator.WellFormed :=
  Model.wellFormed_of_one_object rfl rfl <| by
    simp [twoWriters, Body.AllObjects, Op.AllObjects, Target.AllObjects, Value.AllObjects, Model.HandedOut]

/-- The truth value that the effects write to the binding. -/
def writtenBool? (e : Effects) (b : Binding) : Option Bool :=
  match e.writes[b]? with
  | some ⟨_, some (.primitive (.bool value))⟩ => some value
  | _ => none

theorem site_of_writtenBool? {e : Effects} {value : Bool} (h : writtenBool? e b = some value) :
    ∃ s, e.writes[b]? = some s ∧ s.value = some (.primitive (.bool value)) := by
  unfold writtenBool? at h
  split at h
  · next hs =>
    cases h
    exact ⟨_, hs, rfl⟩
  · cases h

/-- A run on the two writers finds no conflict. -/
theorem run_twoWriters : ∃ (v : Verified) (q r : Record), (twoWriters.run [.ofCallable ⟨0⟩, .ofCallable ⟨1⟩]).1 = .ok v ∧
    v.table.records = [q, r] ∧ writtenBool? q.effects ⟨⟨0⟩, ⟨0⟩⟩ = some true ∧
    writtenBool? r.effects ⟨⟨0⟩, ⟨0⟩⟩ = some false ∧
    ∀ a ∈ v.table.records, (⟨⟨0⟩, ⟨1⟩⟩ : Binding) ∉ a.effects.writes ∧ ∃ call p,
      Placeholders.none.synthesize a.owner a.signature a.candidate.request.shape = .ok (call, p) ∧
      keepsTo a.owner (evaluateUnder [] .trace call [] twoWriters.evaluator).1.2 = true := by
  have h : ((twoWriters.run [.ofCallable ⟨0⟩, .ofCallable ⟨1⟩]).1.toOption.any fun v =>
      v.table.records.map (fun a => writtenBool? a.effects ⟨⟨0⟩, ⟨0⟩⟩) == [some true, some false] &&
      v.table.records.all fun a => !a.effects.writes.contains ⟨⟨0⟩, ⟨1⟩⟩ &&
        (Placeholders.none.synthesize a.owner a.signature a.candidate.request.shape).toOption.any fun result =>
          keepsTo a.owner (evaluateUnder [] .trace result.1 [] twoWriters.evaluator).1.2) = true := by decide +kernel
  obtain ⟨v, hrun, h⟩ := exists_ok_of_any h
  simp only [Bool.and_eq_true, beq_iff_eq] at h
  obtain ⟨hwritten, hall⟩ := h
  obtain ⟨q, rs, hrecords, hq, hrs⟩ := List.map_eq_cons_iff.1 hwritten
  obtain ⟨r, rs, rfl, hr, hnil⟩ := List.map_eq_cons_iff.1 hrs
  rw [List.map_eq_nil_iff.1 hnil] at hrecords
  refine ⟨v, q, r, hrun, hrecords, hq, hr, fun a ha => ?_⟩
  have ha := List.all_eq_true.1 hall a ha
  simp only [Bool.and_eq_true, Bool.not_eq_true'] at ha
  obtain ⟨⟨call, p⟩, hsyn, hkeeps⟩ := exists_ok_of_any ha.2
  exact ⟨by simp [Std.ExtTreeMap.mem_iff_contains, ha.1], call, p, hsyn, hkeeps⟩

/-- Neither of the two writers registers anything or calls the other, and still the one committed last counts. -/
theorem last_of_two_writers_counts : twoWriters.evaluator.WellFormed ∧ ∃ v : Verified,
    (twoWriters.run [.ofCallable ⟨0⟩, .ofCallable ⟨1⟩]).1 = .ok v ∧
    (∀ a ∈ v.table.records, ∃ call p,
      Placeholders.none.synthesize a.owner a.signature a.candidate.request.shape = .ok (call, p) ∧
      keepsTo a.owner (evaluateUnder [] .trace call [] twoWriters.evaluator).1.2 = true) ∧
    ∃ qs qs' : List Record, qs.Perm v.table.records ∧ qs'.Perm v.table.records ∧
      (twoWriters.evaluator.heap.commitAll qs).get? ⟨⟨0⟩, ⟨0⟩⟩ ≠
        (twoWriters.evaluator.heap.commitAll qs').get? ⟨⟨0⟩, ⟨0⟩⟩ := by
  obtain ⟨v, q, r, hrun, hrecords, hq, hr, hown⟩ := run_twoWriters
  obtain ⟨s, hs, hsvalue⟩ := site_of_writtenBool? hq
  obtain ⟨t, ht, htvalue⟩ := site_of_writtenBool? hr
  have hq : q ∈ v.table.records := by simp [hrecords]
  have hr : r ∈ v.table.records := by simp [hrecords]
  obtain ⟨qs, hqs, hlast⟩ := twoWriters.evaluator.heap.exists_perm_commitAll hq hs
  obtain ⟨qs', hqs', hlast'⟩ := twoWriters.evaluator.heap.exists_perm_commitAll hr ht
  refine ⟨wellFormed_twoWriters, v, hrun, fun a ha => (hown a ha).2, qs, qs', hqs, hqs', ?_⟩
  rw [hlast, hlast', hsvalue, htvalue]
  simp

end Checker

/-! ## The records of a run -/

/-- No object was created by two records. -/
theorem Discovering.created_disjoint {m₀ m : Model} {opened : List Record} {t : Table} (hd : Discovering m₀ opened t m)
    {q r : Record} (hq : q ∈ t.records) (hr : r ∈ t.records) (hne : q ≠ r) {a : ObjectId} (haq : a ∈ q.effects.created) :
    a ∉ r.effects.created := by
  have hbefore : t.records.Pairwise fun q r => q ≠ r → ∀ a ∈ q.effects.created, a ∉ r.effects.created :=
    hd.apart.imp fun h _ a ha ha' => Nat.lt_irrefl _ (h a ha a ha')
  have hafter : t.records.Pairwise (flip fun q r => q ≠ r → ∀ a ∈ q.effects.created, a ∉ r.effects.created) :=
    hd.apart.imp fun h _ a ha ha' => Nat.lt_irrefl _ (h a ha' a ha)
  exact List.Pairwise.forall_of_forall_of_flip (fun r _ h => absurd rfl h) hbefore hafter hq hr hne a haq

/-- What two records write with different values is a property of an object from before the run. -/
theorem Discovering.handedOut_of_clash {m₀ m : Model} {opened : List Record} {t : Table} (hw : m₀.WellFormed)
    (hd : Discovering m₀ opened t m) {q r : Record} (hq : q ∈ t.records) (hr : r ∈ t.records)
    (hclash : q.effects.Clash r.effects b) : m₀.HandedOut b.object := by
  obtain ⟨hbq, hbr⟩ := hclash.mem_writes
  obtain ⟨above, n, n', hcq, -⟩ := hd.captured q hq
  obtain ⟨above', k, k', hcr, -⟩ := hd.captured r hr
  rcases (hcq.fresh hw).writes b hbq with h | hcreated
  · exact h
  rcases (hcr.fresh hw).writes b hbr with h | hcreated'
  · exact h
  have hne : q ≠ r := fun h => Effects.not_clash_self (h ▸ hclash)
  exact absurd hcreated' (hd.created_disjoint hq hr hne hcreated)

theorem Table.ancestors_of_root {t : Table} {r : Record} (hr : r ∈ t.records) (hp : r.parent = none) :
    t.ancestors r.owner = [] := by
  rw [ancestors, parent?_owner hr, hp]
  rfl

theorem Table.not_ancestor_of_root {t : Table} {r : Record} (hr : r ∈ t.records) (hp : r.parent = none)
    (f : CallableId) : ¬ t.Ancestor f r.owner := by
  rw [← isAncestor_iff, isAncestor, parent?_owner hr, hp]
  exact Bool.false_ne_true

/-- After a run without conflicts the records can be committed in any order, except for the bindings to which two of
them write different values. These are properties of objects from before the run, and no root that enters the body of
no other record reads them. -/
theorem order_matters_only_at_clashes {c : Checker Model} (hw : c.evaluator.WellFormed) {roots : List Request}
    {v : Verified} (hrun : (c.run roots).1 = .ok v) (b : Binding) :
    (c.evaluator.heap.Settled v.table.records b ↔
      ∀ q ∈ v.table.records, ∀ r ∈ v.table.records, ¬ q.effects.Clash r.effects b) ∧
    ∀ q ∈ v.table.records, ∀ r ∈ v.table.records, q.effects.Clash r.effects b → c.evaluator.HandedOut b.object ∧
      ∀ a ∈ v.table.records, a.parent = none → ∀ (p p' : Placeholders) (call : Call),
        p.synthesize a.owner a.signature a.candidate.request.shape = .ok (call, p') →
        ∀ m : Model, (c.run roots).2.evaluator.Under [] m →
        (∀ f ∈ v.table.owners, .enter f ∈ (evaluateUnder [] .trace call [] m).1.2 → f = a.owner) →
        ∀ l, .read b l ∉ (evaluateUnder [] .trace call [] m).1.2 := by
  obtain ⟨m', ess, hdisc, -, -, -⟩ := Checker.discovering_of_run hw hrun
  refine ⟨c.evaluator.heap.settled_iff, fun q hq r hr hclash => ⟨hdisc.handedOut_of_clash hw hq hr hclash, ?_⟩⟩
  intro a ha hroot p p' call hsyn m hm hown l hread
  obtain ⟨hbq, hbr⟩ := hclash.mem_writes
  -- Whoever writes the binding is the reader itself, and they are two.
  have hself : ∀ w ∈ v.table.records, b ∈ w.effects.writes → w.owner = a.owner := by
    intro w hw' hb
    have hreads := Checker.reads_own_of_run hw hrun ha hsyn hm (x := b) (l := l) (a := w)
    rw [Table.ancestors_of_root ha hroot] at hreads
    obtain h | h | h := hreads hread hw' hb
    · exact h
    · exact absurd h (Table.not_ancestor_of_root ha hroot w.owner)
    · exact hown w.owner (List.mem_map_of_mem hw') h
  have hqr : q = r := List.inj_on_of_nodup_map v.table.nodup_owners hq hr
    ((hself q hq hbq).trans (hself r hr hbr).symm)
  exact Effects.not_clash_self (hqr ▸ hclash)

/-- What the two writers leave depends on their order, but only at the binding that both write. -/
theorem Checker.two_writers_settle_elsewhere : ∃ v : Verified,
    (twoWriters.run [.ofCallable ⟨0⟩, .ofCallable ⟨1⟩]).1 = .ok v ∧
    ¬ twoWriters.evaluator.heap.Settled v.table.records ⟨⟨0⟩, ⟨0⟩⟩ ∧
    twoWriters.evaluator.heap.Settled v.table.records ⟨⟨0⟩, ⟨1⟩⟩ ∧
    ∀ b, ¬ twoWriters.evaluator.heap.Settled v.table.records b → twoWriters.evaluator.HandedOut b.object := by
  obtain ⟨v, q, r, hrun, hrecords, hq, hr, hown⟩ := run_twoWriters
  obtain ⟨s, hs, hsvalue⟩ := site_of_writtenBool? hq
  obtain ⟨t, ht, htvalue⟩ := site_of_writtenBool? hr
  have hmatters := order_matters_only_at_clashes wellFormed_twoWriters hrun
  refine ⟨v, hrun, fun h => ?_, ?_, fun b h => ?_⟩
  · refine (hmatters _).1.1 h q (by simp [hrecords]) r (by simp [hrecords]) ⟨s, t, hs, ht, ?_⟩
    rw [hsvalue, htvalue]
    simp
  · exact (hmatters _).1.2 fun a ha a' _ hclash => (hown a ha).1 hclash.mem_writes.1
  · rw [(hmatters b).1] at h
    push Not at h
    obtain ⟨a, ha, a', ha', hclash⟩ := h
    exact ((hmatters b).2 a ha a' ha' hclash).1

end Independence
