import Independence.Proofs.Analysis.Displacement
import Independence.Proofs.Analysis.Pairwise
/-!
# Corresponding tables

Two analyses of one program may capture the same candidates at other times, and one of them may capture more of them.
Their records correspond: they are the same but for the objects created, which have other numbers. When the records are
replayed, what one sees of what another one writes does not depend on which of the two tables they are in, save that
among more candidates an access may be within a candidate that is not in the other table.
-/

namespace Independence

variable {m₀ m m' : Model} {t t' : Table} {r r' w w' : Record} {rs : List Record} {p : ObjectId → Prop} {n d d' : Nat}

/-! ## Effects with other objects created -/

/-- The same effects, with the numbers of new objects moved up in one way and in another. -/
theorem Effects.Fresh.reproduces_shift {e : Effects} (he : e.Fresh p m m') (hp : ∀ a, p a → a.index < n)
    (hn : n ≤ m.nextObject) (d d' : Nat) : (e.rename (.shift n d')).Reproduces (e.rename (.shift n d)) := by
  have hnew : ∀ a ∈ e.created, n ≤ a.index := fun a ha => Nat.le_trans hn ((he.mem_created a).1 ha).1
  have hsize : ∀ d, (ObjectSet.rename (.shift n d) e.created).size = e.created.size := fun d =>
    ObjectSet.size_rename fun _ _ _ _ => ObjectId.compare_shift n d
  have hresult : ∀ d, e.result.rename (.shift n d) = e.result := fun d =>
    Completion.rename_eq_self (he.result.mono fun a ha => ObjectId.shift_of_lt (hp a ha))
  -- From the one numbering to the other every object created goes to the one in its place, and no other one moves.
  generalize hg : ObjectSet.matching (e.rename (.shift n d)).created (e.rename (.shift n d')).created = g
  have hcreated : ∀ a ∈ e.created, ObjectId.shift n d' a = (g ∘ ObjectId.shift n d) a := by
    intro a ha
    rw [← hg]
    exact (ObjectSet.matching_rename_rename (fun _ _ _ _ => ObjectId.compare_shift n d)
      (fun _ _ _ _ => ObjectId.compare_shift n d') ha).symm
  have hold : ∀ a, p a → ObjectId.shift n d' a = (g ∘ ObjectId.shift n d) a := by
    intro a ha
    have hmem : a ∉ (e.rename (.shift n d)).created := by
      intro hmem
      obtain ⟨b, hb, rfl⟩ := ObjectSet.mem_rename.1 hmem
      rw [ObjectId.shift_of_le (hnew b hb)] at ha
      exact absurd (hp _ ha) (Nat.not_lt.2 (Nat.le_add_right_of_le (hnew b hb)))
    rw [Function.comp_apply, ObjectId.shift_of_lt (hp a ha), ObjectId.shift_of_lt (hp a ha), ← hg,
      ObjectSet.matching_of_not_mem _ hmem]
  have hwrites : WriteSet.rename g (WriteSet.rename (.shift n d) e.writes) =
      WriteSet.rename (g ∘ ObjectId.shift n d) e.writes := by
    have hkey : ∀ b ∈ e.writes, b.rename (g ∘ ObjectId.shift n d) = b.rename (.shift n d') := fun b hb =>
      congrArg (Binding.mk · b.key) ((he.writes b hb).elim (hold _) (hcreated _)).symm
    refine WriteSet.rename_rename (ObjectId.shift_injective n d) fun b hb c hc h => ?_
    rw [hkey b hb, hkey c hc] at h
    exact (Binding.rename_inj (ObjectId.shift_injective n d')).1 h
  refine ⟨(hresult d').trans (hresult d).symm, (hsize d').trans (hsize d).symm, ?_⟩
  rw [hg, he.rename_congr hold hcreated]
  simp only [Effects.rename, hwrites, ObjectSet.rename_rename, Completion.rename_rename]

/-! ## Corresponding records -/

/-- The records are of one candidate, and they differ in the objects created and in the baseline only. -/
structure Record.Agrees (r r' : Record) : Prop where
  candidate : r'.candidate = r.candidate
  signature : r'.signature = r.signature
  parent : r'.parent = r.parent
  effects : r'.effects.Reproduces r.effects

/-- Besides, they write the same to the objects of the program. -/
structure Record.Corresponds (m₀ : Model) (r r' : Record) : Prop extends Record.Agrees r r' where
  writes : ∀ b : Binding, m₀.HandedOut b.object → r'.effects.writes[b]? = r.effects.writes[b]?

theorem Record.Corresponds.owner (h : r.Corresponds m₀ r') : r'.owner = r.owner := congrArg Candidate.callable h.candidate

theorem Record.Corresponds.isDefinitelyAbrupt (h : r.Corresponds m₀ r') :
    r'.effects.result.isDefinitelyAbrupt = r.effects.result.isDefinitelyAbrupt := by
  rw [h.effects.result]

/-- A captured record with its numbers moved up in one way and in another. -/
theorem Captured.corresponds_moved (hw : m₀.WellFormed) {above : List Record} (h : Captured m₀ t r above m m')
    (d d' c c' : Nat) :
    (r.moved (.shift m₀.nextObject d) c).Corresponds m₀ (r.moved (.shift m₀.nextObject d') c') where
  candidate := rfl
  signature := rfl
  parent := rfl
  effects := (h.fresh hw).reproduces_shift (fun _ ha => ha) h.under.le_next d d'
  writes b hb := by
    have hsame : ∀ d, b.rename (.shift m₀.nextObject d) = b := fun d =>
      congrArg (Binding.mk · b.key) (ObjectId.shift_of_lt hb)
    have hsite : ∀ d, (r.moved (.shift m₀.nextObject d) c).effects.writes[b]? = r.effects.writes[b]? := by
      intro d
      have hget := WriteSet.getElem?_rename (ObjectId.shift_injective m₀.nextObject d) r.effects.writes b
      rw [hsame d] at hget
      refine hget.trans ?_
      cases hs : r.effects.writes[b]? with
      | none => rfl
      | some s =>
        have hvalue : s.value.map (Value.rename (.shift m₀.nextObject d)) = s.value := by
          cases hv : s.value with
          | none => rfl
          | some v =>
            have hold := ((h.fresh hw).values b s v hs hv).mono fun a ha => ObjectId.shift_of_lt (d := d) ha
            exact congrArg some (Value.rename_eq_self hold)
        simp [WriteSite.rename, hvalue]
    exact (hsite d').trans (hsite d).symm

@[simp] theorem Record.moved_zero (n : Nat) (r : Record) : r.moved (.shift n 0) 0 = r := by
  simp [Record.moved]

/-- A record corresponds to what becomes of it in an analysis that begins in `k`. -/
theorem Discovering.corresponds_place (hw : m₀.WellFormed) {opened : List Record} (h : Discovering m₀ opened t m)
    (hr : r ∈ t.records) (k : Session Model) : r.Corresponds m₀ (k.place m₀ r) := by
  obtain ⟨above, n, n', hc, -⟩ := h.captured r hr
  have hplace := hc.corresponds_moved hw 0 (k.ahead m₀) 0 k.traversal.commits
  rwa [Record.moved_zero] at hplace

theorem Discovering.corresponds_self (hw : m₀.WellFormed) {opened : List Record} (h : Discovering m₀ opened t m)
    (hr : r ∈ t.records) : r.Corresponds m₀ r := by
  obtain ⟨above, n, n', hc, -⟩ := h.captured r hr
  have hsame := hc.corresponds_moved hw 0 0 0 0
  rwa [Record.moved_zero] at hsame

/-- An analysis that begins from nothing has its records as they are. -/
theorem Session.place_start (m₀ : Model) (roots : List Request) (reporter : Reporter) :
    (Session.start m₀ roots reporter).place m₀ = id := by
  have hahead : (Session.start m₀ roots reporter).ahead m₀ = 0 := Nat.sub_self _
  funext r
  rw [place, placed, hahead]
  exact r.moved_zero _

/-! ## Corresponding tables -/

/-- Every record of `t` has a corresponding one in `t'`. -/
def Table.Embeds (m₀ : Model) (t t' : Table) : Prop := ∀ r ∈ t.records, ∃ r' ∈ t'.records, r.Corresponds m₀ r'

namespace Table.Embeds

variable {x : Option CallableId} {above : List Record} {a f : CallableId}

theorem contains (h : t.Embeds m₀ t') (hf : t.contains f = true) : t'.contains f = true := by
  obtain ⟨r, hr, rfl⟩ := List.mem_map.1 (Table.contains_iff.1 hf)
  obtain ⟨r', hr', hrr⟩ := h r hr
  exact Table.contains_iff.2 (List.mem_map.2 ⟨r', hr', hrr.owner⟩)

theorem completes (h : t.Embeds m₀ t') (ht' : ∀ r ∈ t'.records, r.effects.result.isDefinitelyAbrupt = false) :
    ∀ r ∈ t.records, r.effects.result.isDefinitelyAbrupt = false := by
  intro r hr
  obtain ⟨r', hr', hrr⟩ := h r hr
  rw [← hrr.isDefinitelyAbrupt]
  exact ht' r' hr'

/-- The parents lead through corresponding records. -/
theorem chain (h : t.Embeds m₀ t') (hc : t.Chain x above) :
    ∃ above', t'.Chain x above' ∧ List.Forall₂ (Record.Corresponds m₀) above above' := by
  induction hc with
  | root => exact ⟨[], .root, .nil⟩
  | @step f r rs hr hrs ih =>
    obtain ⟨r', hr', hrr⟩ := h r (mem_of_get? hr)
    obtain ⟨rs', hrs', hall⟩ := ih
    refine ⟨r' :: rs', .step ?_ (hrr.parent ▸ hrs'), .cons hrr hall⟩
    rw [← owner_of_get? hr, ← hrr.owner]
    exact get?_owner hr'

theorem ancestor_iff (h : t.Embeds m₀ t') (hr : r ∈ t.records) (hc : t.Chain r.parent above) (hr' : r' ∈ t'.records)
    (hrr : r.Corresponds m₀ r') : t'.Ancestor a r'.owner ↔ t.Ancestor a r.owner := by
  obtain ⟨above', hc', hall⟩ := h.chain hc
  rw [← parent?_owner hr] at hc
  rw [← hrr.parent, ← parent?_owner hr'] at hc'
  have howners : List.Forall₂ (fun r r' : Record => r'.owner = r.owner) above above' := hall.imp fun _ _ h => h.owner
  rw [hc.ancestor_iff, hc'.ancestor_iff]
  clear hc hc' hall
  induction howners with
  | nil => simp
  | cons hrr _ ih => simp [hrr, ih]

end Table.Embeds

/-- To the bindings of the program corresponding records give the same values. -/
theorem Record.overlayAll_effectsAlong {rs rs' : List Record} (h : List.Forall₂ (Record.Corresponds m₀) rs rs')
    {b : Binding} (hb : m₀.HandedOut b.object) (v : Binding → Option Value) :
    Effects.overlayAll (effectsAlong rs') v b = Effects.overlayAll (effectsAlong rs) v b := by
  induction h with
  | nil => rfl
  | cons hrr _ ih =>
    rw [effectsAlong_cons, effectsAlong_cons, Effects.overlayAll_concat, Effects.overlayAll_concat, Effects.overlay,
      Effects.overlay, hrr.writes b hb, ih]

/-! ## The same replays -/

section Replays
variable (hw : m₀.WellFormed) (hd : Discovering m₀ [] t m) (hd' : Discovering m₀ [] t' m')
include hw hd hd'

/-- There is a course of events that the replays of corresponding records both can take. It touches only objects of the
program and objects newer than all those of the two tables. -/
theorem exists_shared_events (h : t.Embeds m₀ t') (hr : r ∈ t.records) (hr' : r' ∈ t'.records)
    (hrr : r.Corresponds m₀ r') : ∃ es, EventsOf m₀ t m r es ∧ EventsOf m₀ t' m' r' es ∧
      ∀ e ∈ es, e.Within fun a => m₀.HandedOut a ∨ max m.nextObject m'.nextObject ≤ a.index := by
  obtain ⟨above, n, n', hc, -⟩ := hd.captured r hr
  obtain ⟨above', n₁, n₁', hc', -⟩ := hd'.captured r' hr'
  obtain ⟨above₁, hchain, hall⟩ := h.chain hc.chain
  have habove : above₁ = above' := hchain.unique (hrr.parent ▸ hc'.chain)
  subst habove
  obtain ⟨names, hnames⟩ := hc.simple
  obtain ⟨call, q, hsyn, hcallee, hlocation⟩ :=
    Placeholders.synthesize_of_simple hnames .none r.owner r.candidate.request.shape
  -- Both replays happen when the same number of objects was handed out.
  generalize hK : max m.nextObject m'.nextObject = K
  have hm : m.nextObject ≤ K := hK ▸ Nat.le_max_left _ _
  have hm' : m'.nextObject ≤ K := hK ▸ Nat.le_max_right _ _
  obtain ⟨k, hk, hnext, -⟩ := (hd.under.advance hm).evaluateUnder (Record.effectsAlong above) call
  obtain ⟨k', hk', hnext', -⟩ := (hd'.under.advance hm').evaluateUnder (Record.effectsAlong above₁) call
  have hnext : k.nextObject = K := hnext
  have hnext' : k'.nextObject = K := hnext'
  have hsame := hk.events_traceOf hw hk' (hnext'.trans hnext.symm)
    (fun e he => (hd.below_along hw hc.chain e he).mono (hnext ▸ hm))
    (fun e he => (hd'.below_along hw hchain e he).mono (hnext ▸ hm'))
    (fun b hb => Record.overlayAll_effectsAlong hall hb m₀.get?) call
  refine ⟨(finalState (k.traceOf call)).1, ⟨k, call, ?_, hnext ▸ hm, hcallee, hlocation, rfl⟩,
    ⟨k', call, ?_, hnext' ▸ hm', hcallee.trans hrr.owner.symm, hlocation.trans (by rw [hrr.signature]), hsame.symm⟩, ?_⟩
  · rw [hc.effects_ancestors hr]
    exact hk
  · rw [hc'.effects_ancestors hr']
    exact hk'
  · rw [← hnext]
    exact Model.within_traceOf (fun g hg => hw.bodies g (hk.functions ▸ hg)) call

/-- To sights of such objects corresponding records write alike. -/
theorem seenBy_of_corresponds (hwt : w ∈ t.records) (hwt' : w' ∈ t'.records) (hww : w.Corresponds m₀ w') {a : Sight}
    (ha : m₀.HandedOut a.look.object ∨ max m.nextObject m'.nextObject ≤ a.look.object.index) (f : CallableId) :
    a.seenBy w' f = a.seenBy w f := by
  rcases ha with hold | hnew
  · have hbinding : ∀ b : Binding, m₀.HandedOut b.object → (b ∈ w'.effects.writes ↔ b ∈ w.effects.writes) := by
      intro b hb
      rw [Std.ExtTreeMap.mem_iff_isSome_getElem?, Std.ExtTreeMap.mem_iff_isSome_getElem?, hww.writes b hb]
    cases hl : a.look with
    | read b =>
      rw [hl] at hold
      have hsame : w'.effects.writesBinding b = w.effects.writesBinding b := by
        rw [Bool.eq_iff_iff]
        exact hbinding b hold
      simp [Sight.seenBy, hl, hsame, hww.owner]
    | enumerate o =>
      rw [hl] at hold
      have hsame : w'.effects.writesObject o = w.effects.writesObject o := by
        rw [Bool.eq_iff_iff, Effects.writesObject_iff, Effects.writesObject_iff]
        refine exists_congr fun b => ?_
        constructor <;> rintro ⟨hb, rfl⟩
        · exact ⟨(hbinding b hold).1 hb, rfl⟩
        · exact ⟨(hbinding b hold).2 hb, rfl⟩
      simp [Sight.seenBy, hl, hsame, hww.owner]
  · rw [Sight.seenBy_eq_false (hd.below hw hwt) (Nat.le_trans (Nat.le_max_left _ _) hnew),
      Sight.seenBy_eq_false (hd'.below hw hwt') (Nat.le_trans (Nat.le_max_right _ _) hnew)]

end Replays

/-! ## What the replays see -/

section Sights
variable {calls : List CallableId} {es : List Event} {q : ObjectId → Prop} {f : CallableId}

theorem object_of_mem_sights (hes : ∀ e ∈ es, e.Within q) {a : Sight} (ha : a ∈ sights t calls es) :
    q a.look.object := by
  induction es generalizing calls with
  | nil => cases ha
  | cons e es ih =>
    rcases List.mem_append.1 ha with ha | ha
    · have he := hes e List.mem_cons_self
      rw [Option.mem_toList] at ha
      unfold Event.sight? at ha
      split at ha <;> cases ha <;> exact he.1
    · exact ih (fun e he => hes e (List.mem_cons_of_mem _ he)) ha

theorem sights_congr (h : t'.contains = t.contains) : sights t' calls es = sights t calls es := by
  induction es generalizing calls with
  | nil => rfl
  | cons e es ih =>
    have hsight : e.sight? t' calls = e.sight? t calls := by
      unfold Event.sight?
      rw [h]
    rw [sights_cons, sights_cons, hsight, ih]

/-- Among more candidates the same is looked at, and who was within a candidate of the smaller table then was within it
before. -/
theorem exists_sight_of_contains (h : ∀ g, t.contains g = true → t'.contains g = true) {a : Sight}
    (ha : a ∈ sights t calls es) : ∃ a' ∈ sights t' calls es, a'.look = a.look ∧ a'.location = a.location ∧
      ∀ g, t.contains g = true → a'.within = some g → a.within = some g := by
  have hfind : ∀ calls : List CallableId, ∀ g, t.contains g = true → calls.find? t'.contains = some g →
      calls.find? t.contains = some g := by
    intro calls g hg hfound
    -- Nobody further in is in the larger table, so nobody is in the smaller one.
    obtain ⟨-, as, bs, rfl, has⟩ := List.find?_eq_some_iff_append.1 hfound
    refine List.find?_eq_some_iff_append.2 ⟨hg, as, bs, rfl, fun b hb => ?_⟩
    have hnot := has b hb
    simp only [Bool.not_eq_true', ← Bool.not_eq_true] at hnot ⊢
    exact fun hb => hnot (h b hb)
  induction es generalizing calls with
  | nil => cases ha
  | cons e es ih =>
    rcases List.mem_append.1 ha with ha | ha
    · rw [Option.mem_toList] at ha
      cases e with
      | read b l =>
        cases l with
        | none => cases ha
        | some l =>
          cases ha
          exact ⟨_, List.mem_append_left _ (List.mem_singleton_self _), rfl, rfl, hfind calls⟩
      | enumerate o l =>
        cases l with
        | none => cases ha
        | some l =>
          cases ha
          exact ⟨_, List.mem_append_left _ (List.mem_singleton_self _), rfl, rfl, hfind calls⟩
      | _ => cases ha
    · obtain ⟨a', ha', hlook⟩ := ih ha
      exact ⟨a', List.mem_append_right _ ha', hlook⟩

end Sights

section Seen
variable {seen seen' : Record → Record → List Location} (hw : m₀.WellFormed) (hd : Discovering m₀ [] t m)
  (hd' : Discovering m₀ [] t' m') (h : t.Embeds m₀ t') (hseen : Analysis.SeenIn m₀ t m seen)
  (hseen' : Analysis.SeenIn m₀ t' m' seen') (hr : r ∈ t.records) (hr' : r' ∈ t'.records) (hrr : r.Corresponds m₀ r')
  (hwt : w ∈ t.records) (hwt' : w' ∈ t'.records) (hww : w.Corresponds m₀ w')
include hw hd hd' h hseen hseen' hr hr' hrr hwt hwt' hww

/-- What a record sees of another one it sees among more candidates as well. -/
theorem seen_subset_of_embeds (hne : r.owner ≠ w.owner) : seen w r ⊆ seen' w' r' := by
  obtain ⟨es, hes, hes', hwithin⟩ := exists_shared_events hw hd hd' h hr hr' hrr
  rw [← hseen r hr es hes w hwt, ← hseen' r' hr' es hes' w' hwt', hrr.owner, Table.sees_noted, Table.sees_noted]
  intro l hl
  obtain ⟨a, ha, rfl⟩ := List.mem_map.1 hl
  obtain ⟨ha, hseenBy⟩ := List.mem_filter.1 ha
  obtain ⟨a', ha', hlook, hlocation, hattributed⟩ := exists_sight_of_contains (fun _ => h.contains) (mem_accesses.1 ha)
  refine List.mem_map.2 ⟨a', List.mem_filter.2 ⟨mem_accesses.2 ha', ?_⟩, hlocation⟩
  rw [seenBy_of_corresponds hw hd hd' hwt hwt' hww (object_of_mem_sights hwithin ha')]
  -- If the access were within the writer now, it would have been before.
  have hother : a'.within.getD r.owner ≠ w.owner := by
    cases hg : a'.within with
    | none => exact hne
    | some g =>
      rintro rfl
      have hcontains : t.contains w.owner = true := Table.contains_iff.2 (List.mem_map_of_mem hwt)
      have hbefore := hattributed w.owner hcontains hg
      simp [Sight.seenBy, hbefore] at hseenBy
  simp only [Sight.seenBy, Bool.and_eq_true, decide_eq_true_eq] at hseenBy ⊢
  exact ⟨hother, by rw [hlook]; exact hseenBy.2⟩

/-- Among the same candidates records see the same of each other. -/
theorem seen_eq_of_embeds (hsame : t'.contains = t.contains) : seen' w' r' = seen w r := by
  obtain ⟨es, hes, hes', hwithin⟩ := exists_shared_events hw hd hd' h hr hr' hrr
  rw [← hseen r hr es hes w hwt, ← hseen' r' hr' es hes' w' hwt', hrr.owner, Table.sees_noted, Table.sees_noted]
  have haccesses : accesses t' es = accesses t es := by rw [accesses, accesses, sights_congr hsame]
  rw [haccesses]
  refine congrArg (List.map Sight.location) (List.filter_congr fun a ha => ?_)
  exact seenBy_of_corresponds hw hd hd' hwt hwt' hww (object_of_mem_sights hwithin (mem_accesses.1 ha)) r.owner

end Seen

/-! ## Conflicts -/

namespace Analysis

theorem mem_locations_firstAtEach {cs : List Conflict} {l : Location} :
    l ∈ (Conflict.firstAtEach cs).map Conflict.location ↔ l ∈ cs.map Conflict.location := by
  induction cs with
  | nil => rfl
  | cons c cs ih =>
    simp only [Conflict.firstAtEach, List.map_cons, List.mem_cons, ← ih]
    by_cases hl : l = c.location
    · simp [hl]
    · simp only [hl, false_or, List.mem_map, List.mem_filter, decide_eq_true_eq]
      refine exists_congr fun d => ⟨fun h => ⟨h.1.1, h.2⟩, fun h => ⟨⟨h.1, ?_⟩, h.2⟩⟩
      exact fun he => hl (h.2.symm.trans he)

/-- Conflicts are located where a record sees writes that count against it. -/
theorem mem_locations_allConflicts {nameOf : CallableId → String} {seen : Record → Record → List Location} {l : Location} :
    l ∈ (allConflicts t nameOf seen).map Conflict.location ↔
      ∃ w ∈ t.records, ∃ r ∈ t.records, t.concerns w r = true ∧ l ∈ seen w r := by
  rw [allConflicts, mem_locations_firstAtEach]
  simp only [writerConflicts, pairConflicts, List.mem_map, List.mem_flatMap]
  constructor
  · rintro ⟨c, ⟨w, hw, r, hr, hc⟩, rfl⟩
    split at hc
    · next hconcerns =>
      obtain ⟨l, hl, rfl⟩ := List.mem_map.1 hc
      exact ⟨w, hw, r, hr, hconcerns, hl⟩
    · cases hc
  · rintro ⟨w, hw, r, hr, hconcerns, hl⟩
    refine ⟨⟨l, nameOf w.owner, w.owner, r.owner⟩, ⟨w, hw, r, hr, ?_⟩, rfl⟩
    rw [if_pos hconcerns]
    exact List.mem_map.2 ⟨l, hl, rfl⟩

section Compared
variable {seen seen' : Record → Record → List Location} (hw : m₀.WellFormed) (hd : Discovering m₀ [] t m)
  (hd' : Discovering m₀ [] t' m') (hseen : SeenIn m₀ t m seen) (hseen' : SeenIn m₀ t' m' seen')
  (nameOf nameOf' : CallableId → String)
include hd

/-- Writes count against corresponding records alike. -/
theorem concerns_of_embeds (h : t.Embeds m₀ t') (hr : r ∈ t.records) (hr' : r' ∈ t'.records) (hrr : r.Corresponds m₀ r')
    (hww : w.Corresponds m₀ w') : t'.concerns w' r' = t.concerns w r := by
  obtain ⟨above, n, n', hc, -⟩ := hd.captured r hr
  have hanc : t'.isAncestor w.owner r'.owner = t.isAncestor w.owner r.owner := by
    rw [Bool.eq_iff_iff, Table.isAncestor_iff, Table.isAncestor_iff, h.ancestor_iff hr hc.chain hr' hrr]
  rw [Table.concerns, Table.concerns, hww.owner, hanc, hrr.owner]

include hw hd' hseen hseen'

/-- Where there is a conflict, there is one among more candidates. -/
theorem locations_subset_of_embeds (h : t.Embeds m₀ t') : (allConflicts t nameOf seen).map Conflict.location ⊆
    (allConflicts t' nameOf' seen').map Conflict.location := by
  intro l hl
  obtain ⟨w, hwt, r, hr, hconcerns, hl⟩ := mem_locations_allConflicts.1 hl
  obtain ⟨w', hwt', hww⟩ := h w hwt
  obtain ⟨r', hr', hrr⟩ := h r hr
  have hne : r.owner ≠ w.owner := by
    simp only [Table.concerns, Bool.and_eq_true, decide_eq_true_eq] at hconcerns
    exact hconcerns.1
  refine mem_locations_allConflicts.2 ⟨w', hwt', r', hr', ?_, ?_⟩
  · rw [concerns_of_embeds hd h hr hr' hrr hww]
    exact hconcerns
  · exact seen_subset_of_embeds hw hd hd' h hseen hseen' hr hr' hrr hwt hwt' hww hne hl

/-- Tables of corresponding records in the same order have the same conflicts. -/
theorem allConflicts_map {g : Record → Record} (hmap : t'.records = t.records.map g)
    (hg : ∀ r ∈ t.records, r.Corresponds m₀ (g r)) : allConflicts t' nameOf seen' = allConflicts t nameOf seen := by
  have howners : t'.owners = t.owners := by
    rw [Table.owners, Table.owners, hmap, List.map_map]
    exact List.map_congr_left fun r hr => (hg r hr).owner
  have hcontains : t'.contains = t.contains := funext fun f => by rw [Table.contains_eq, Table.contains_eq, howners]
  have hmem : ∀ r ∈ t.records, g r ∈ t'.records := fun r hr => hmap ▸ List.mem_map_of_mem hr
  have h : t.Embeds m₀ t' := fun r hr => ⟨g r, hmem r hr, hg r hr⟩
  rw [allConflicts, allConflicts, hmap, List.flatMap_map]
  refine congrArg Conflict.firstAtEach (List.flatMap_congr fun w hwt => ?_)
  rw [writerConflicts, writerConflicts, hmap, List.flatMap_map]
  refine List.flatMap_congr fun r hr => ?_
  rw [pairConflicts, pairConflicts, concerns_of_embeds hd h hr (hmem r hr) (hg r hr) (hg w hwt),
    seen_eq_of_embeds hw hd hd' h hseen hseen' hr (hmem r hr) (hg r hr) hwt (hmem w hwt) (hg w hwt) hcontains,
    (hg w hwt).owner, (hg r hr).owner]

end Compared

end Analysis

end Independence
