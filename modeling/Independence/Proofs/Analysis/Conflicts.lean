import Independence.Proofs.Analysis.Replay
/-!
# The list of conflicts

An access conflicts with a record that writes what the access looks at, unless the record is that of an ancestor or
of the candidate that was running. Of all accesses in conflict at one location the list has the first one, by the
table position of the writer, then that of the reader, then the position among the reader's accesses, and the list
is in this order.
-/

namespace Independence

variable {t : Table} {ess : List (List Event)} {es : List Event} {nameOf : CallableId → String} {w r : Record}
  {a : Sight}

/-! ## Hits -/

/-- The effects write what the access looks at: the binding that it reads, or some property of the object that it
enumerates. -/
def Effects.Affects (e : Effects) : Look → Prop
  | .read b => b ∈ e.writes
  | .enumerate o => ∃ b ∈ e.writes, b.object = o

/-- The access, made in a replay of `r`, conflicts with the writes of `w`. -/
structure Sight.Sees (a : Sight) (t : Table) (w r : Record) : Prop where
  other : w.owner ≠ r.owner
  unrelated : ¬ t.Ancestor w.owner r.owner
  foreign : ∃ g, a.within = some g ∧ g ≠ w.owner
  affected : w.effects.Affects a.look

/-- Where an access and a writer meet: the table positions of the writer and of the reader, and the position of the
access among those of the reader's replay. -/
structure Place where
  writer : Nat
  reader : Nat
  access : Nat

/-- The order of the places: by writer, then by reader, then by access. -/
def Place.Before (p q : Place) : Prop :=
  p.writer < q.writer ∨ p.writer = q.writer ∧
    (p.reader < q.reader ∨ p.reader = q.reader ∧ p.access < q.access)

/-- At this place an access at `l` conflicts with the writer, if `ess` are the events of the replays. -/
def Hit (t : Table) (ess : List (List Event)) (p : Place) (l : Location) : Prop :=
  ∃ w r es a, t.records[p.writer]? = some w ∧ t.records[p.reader]? = some r ∧ ess[p.reader]? = some es ∧
    (accesses t es)[p.access]? = some a ∧ a.location = l ∧ a.Sees t w r

/-- The conflict reports the first hit at its location and names the writer and the reader there. -/
structure Conflict.Reports (c : Conflict) (t : Table) (nameOf : CallableId → String) (ess : List (List Event))
    (p : Place) : Prop where
  hit : Hit t ess p c.location
  first : ∀ q, Hit t ess q c.location → q = p ∨ p.Before q
  writer : (t.records[p.writer]?).map Record.owner = some c.writer
  reader : (t.records[p.reader]?).map Record.owner = some c.reader
  name : c.name = nameOf c.writer

/-! ## The tests of the detector -/

theorem Effects.writesObject_iff {e : Effects} {o : ObjectId} :
    e.writesObject o = true ↔ ∃ b ∈ e.writes, b.object = o := by
  simp [writesObject, writtenObjects, Std.ExtTreeSet.contains_ofList]

/-- What the detector tests of an access, besides its reader. -/
def Sight.seenBy (w : Record) (reader : CallableId) (a : Sight) : Bool :=
  a.within.getD reader ≠ w.owner && match a.look with
    | .read b => w.effects.writesBinding b
    | .enumerate o => w.effects.writesObject o

theorem Sight.sees_iff (ha : a.within.isSome) :
    (t.concerns w r && a.seenBy w r.owner) = true ↔ a.Sees t w r := by
  obtain ⟨g, hg⟩ := Option.isSome_iff_exists.1 ha
  have haffected : (match a.look with
      | .read b => w.effects.writesBinding b
      | .enumerate o => w.effects.writesObject o) = true ↔ w.effects.Affects a.look := by
    cases a.look with
    | read b => rfl
    | enumerate o => exact Effects.writesObject_iff
  have hanc : t.isAncestor w.owner r.owner = false ↔ ¬ t.Ancestor w.owner r.owner := by
    rw [← Table.isAncestor_iff, Bool.not_eq_true]
  simp only [Table.concerns, Sight.seenBy, hg, Option.getD_some, Bool.and_eq_true, decide_eq_true_eq,
    Bool.not_eq_true', haffected, hanc]
  constructor
  · rintro ⟨⟨hother, hanc⟩, hforeign, haff⟩
    exact ⟨Ne.symm hother, hanc, ⟨g, hg, hforeign⟩, haff⟩
  · rintro ⟨hother, hanc, ⟨g', hg', hforeign⟩, haff⟩
    rw [hg] at hg'
    cases hg'
    exact ⟨⟨Ne.symm hother, hanc⟩, hforeign, haff⟩

/-- Picking the accesses of one kind and testing them is testing those of the kind. -/
theorem Sight.filter_picked {β : Type} {pick : Sight → Option (Access β)} {kind : Sight → Bool} {test : Access β → Bool}
    {seen : Sight → Bool} (hnone : ∀ a, kind a = false → pick a = none)
    (hsome : ∀ a, kind a = true → ∃ x, pick a = some x ∧ x.location = a.location ∧ test x = seen a) (ss : List Sight) :
    ((ss.filterMap pick).filter test).map Access.location = ((ss.filter kind).filter seen).map Sight.location := by
  induction ss with
  | nil => rfl
  | cons a ss ih =>
    cases hk : kind a with
    | false => simp [hnone a hk, hk, ih]
    | true =>
      obtain ⟨x, hx, hlocation, htest⟩ := hsome a hk
      cases hs : seen a <;> simp [hx, hk, htest, hs, hlocation, ih]

/-- The detector sees the accesses that pass its test, reads before enumerations. -/
theorem Table.sees_noted (w : Record) (t : Table) (f : CallableId) (es : List Event) :
    sees w (Replay.noted t f es) = ((accesses t es).filter (Sight.seenBy w f)).map Sight.location := by
  rw [Replay.noted_eq, sees, accesses, List.filter_append, List.map_append]
  congr 1
  · refine Sight.filter_picked (fun a ha => ?_) (fun a ha => ?_) _
    · cases h : a.look <;> simp [Sight.read?, h, Look.isRead] at ha ⊢
    · cases h : a.look <;> simp [Sight.read?, Sight.seenBy, h, Look.isRead] at ha ⊢
  · refine Sight.filter_picked (fun a ha => ?_) (fun a ha => ?_) _
    · cases h : a.look <;> simp [Sight.enumeration?, h, Look.isRead] at ha ⊢
    · cases h : a.look <;> simp [Sight.enumeration?, Sight.seenBy, h, Look.isRead] at ha ⊢

/-! ## All hits in order -/

/-- All hits with what would be reported for each, in the order in which the detector meets them. -/
def Table.hits (t : Table) (nameOf : CallableId → String) (ess : List (List Event)) : List (Place × Conflict) :=
  t.records.zipIdx.flatMap fun (w, i) =>
    (t.records.zip ess).zipIdx.flatMap fun ((r, es), j) =>
      ((accesses t es).zipIdx.filter fun (a, _) => t.concerns w r && a.seenBy w r.owner).map fun (a, k) =>
        (⟨i, j, k⟩, ⟨a.location, nameOf w.owner, w.owner, r.owner⟩)

theorem flatMap_zipIdx {α β : Type} (l : List α) (f : α → List β) :
    (l.zipIdx.flatMap fun x => f x.1) = l.flatMap f := by
  rw [← List.flatMap_map, List.zipIdx_map_fst]

theorem map_filter_zipIdx {α β : Type} (l : List α) (p : α → Bool) (f : α → β) :
    (l.zipIdx.filter fun x => p x.1).map (fun x => f x.1) = (l.filter p).map f := by
  have h : (l.zipIdx.map Prod.fst).filter p = (l.zipIdx.filter fun x => p x.1).map Prod.fst := List.filter_map
  rw [List.zipIdx_map_fst] at h
  rw [h, List.map_map]
  rfl

theorem zip_zipWith_left {α β γ : Type} (f : α → β → γ) (as : List α) (bs : List β) :
    as.zip (List.zipWith f as bs) = (as.zip bs).map fun x => (x.1, f x.1 x.2) := by
  induction as generalizing bs with
  | nil => rfl
  | cons a as ih => cases bs <;> simp [ih]

/-- The detector reports the first hit at each location. -/
theorem Table.conflicts_eq (t : Table) (nameOf : CallableId → String) (ess : List (List Event)) :
    t.conflicts nameOf (List.zipWith (fun r es => Replay.noted t r.owner es) t.records ess) =
      Conflict.firstAtEach ((t.hits nameOf ess).map Prod.snd) := by
  have hinner : ∀ w r es, (if t.concerns w r then
      (sees w (Replay.noted t r.owner es)).map fun l => (⟨l, nameOf w.owner, w.owner, r.owner⟩ : Conflict) else []) =
      ((accesses t es).filter fun a => t.concerns w r && a.seenBy w r.owner).map
        fun a => ⟨a.location, nameOf w.owner, w.owner, r.owner⟩ := by
    intro w r es
    cases t.concerns w r <;> simp [sees_noted]
  simp only [conflicts, hits, zip_zipWith_left, List.flatMap_map, hinner, List.map_flatMap, List.map_map]
  refine congrArg Conflict.firstAtEach ?_
  -- The loops of the detector go without positions; to carry them along changes nothing.
  rw [← flatMap_zipIdx t.records]
  refine congrArg (List.flatMap · _) (funext fun x => ?_)
  rw [← flatMap_zipIdx (t.records.zip ess)]
  refine congrArg (List.flatMap · _) (funext fun y => ?_)
  exact (map_filter_zipIdx _ _ _).symm

theorem pairwise_zipIdx {α : Type} (l : List α) : l.zipIdx.Pairwise fun x y => x.2 < y.2 := by
  have h : (l.zipIdx.map Prod.snd).Pairwise (· < ·) := by
    rw [List.zipIdx_map_snd]
    exact List.pairwise_lt_range'
  exact List.pairwise_map.1 h

/-- The detector meets the hits in the order of their places. -/
theorem Table.pairwise_hits (t : Table) (nameOf : CallableId → String) (ess : List (List Event)) :
    (t.hits nameOf ess).Pairwise fun x y => x.1.Before y.1 := by
  refine List.pairwise_flatMap.2 ⟨fun x _ => ?_, (pairwise_zipIdx t.records).imp fun {x y} hxy => ?_⟩
  · refine List.pairwise_flatMap.2 ⟨fun y _ => ?_, (pairwise_zipIdx _).imp fun {y z} hyz => ?_⟩
    · refine List.pairwise_map.2 (((pairwise_zipIdx _).filter _).imp fun {a b} hab => ?_)
      exact .inr ⟨rfl, .inr ⟨rfl, hab⟩⟩
    · rintro p hp q hq
      obtain ⟨a, -, rfl⟩ := List.mem_map.1 hp
      obtain ⟨b, -, rfl⟩ := List.mem_map.1 hq
      exact .inr ⟨rfl, .inl hyz⟩
  · rintro p hp q hq
    obtain ⟨y, -, hp⟩ := List.mem_flatMap.1 hp
    obtain ⟨z, -, hq⟩ := List.mem_flatMap.1 hq
    obtain ⟨a, -, rfl⟩ := List.mem_map.1 hp
    obtain ⟨b, -, rfl⟩ := List.mem_map.1 hq
    exact .inl hxy

theorem Table.mem_hits {p : Place} {c : Conflict} : (p, c) ∈ t.hits nameOf ess ↔
    ∃ w r es a, t.records[p.writer]? = some w ∧ t.records[p.reader]? = some r ∧ ess[p.reader]? = some es ∧
      (accesses t es)[p.access]? = some a ∧ (t.concerns w r && a.seenBy w r.owner) = true ∧
      c = ⟨a.location, nameOf w.owner, w.owner, r.owner⟩ := by
  simp only [hits, List.mem_flatMap, List.mem_map, List.mem_filter, Prod.exists, List.mem_zipIdx_iff_getElem?,
    List.getElem?_zip_eq_some, Prod.mk.injEq]
  constructor
  · rintro ⟨w, i, hw, r, es, j, ⟨hr, hes⟩, a, k, ⟨ha, hsees⟩, rfl, rfl⟩
    exact ⟨w, r, es, a, hw, hr, hes, ha, hsees, rfl⟩
  · rintro ⟨w, r, es, a, hw, hr, hes, ha, hsees, rfl⟩
    exact ⟨w, p.writer, hw, r, es, p.reader, ⟨hr, hes⟩, a, p.access, ⟨ha, hsees⟩, rfl, rfl⟩

/-! ## The first hit at each location -/

/-- The first pair at each location. -/
def firstPlaces : List (Place × Conflict) → List (Place × Conflict)
  | [] => []
  | x :: xs => x :: (firstPlaces xs).filter (·.2.location ≠ x.2.location)

theorem map_firstPlaces (xs : List (Place × Conflict)) :
    (firstPlaces xs).map Prod.snd = Conflict.firstAtEach (xs.map Prod.snd) := by
  induction xs with
  | nil => rfl
  | cons x xs ih =>
    rw [firstPlaces, List.map_cons, List.map_cons, Conflict.firstAtEach, ← ih, List.filter_map]
    rfl

theorem firstPlaces_sublist (xs : List (Place × Conflict)) : (firstPlaces xs).Sublist xs := by
  induction xs with
  | nil => exact .slnil
  | cons x xs ih => exact .cons_cons x (List.filter_sublist.trans ih)

theorem Conflict.nodup_firstAtEach (cs : List Conflict) : ((firstAtEach cs).map Conflict.location).Nodup := by
  induction cs with
  | nil => exact List.nodup_nil
  | cons c cs ih =>
    rw [firstAtEach, List.map_cons, List.nodup_cons]
    refine ⟨fun h => ?_, ih.sublist (List.filter_sublist.map _)⟩
    obtain ⟨d, hd, heq⟩ := List.mem_map.1 h
    have hne := (List.mem_filter.1 hd).2
    simp [heq] at hne

theorem nodup_firstPlaces (xs : List (Place × Conflict)) : ((firstPlaces xs).map (·.2.location)).Nodup := by
  have h := Conflict.nodup_firstAtEach (xs.map Prod.snd)
  rwa [← map_firstPlaces, List.map_map] at h

/-- Whatever is in the list, the first one at its location is kept, and comes no later. -/
theorem exists_firstPlace {xs : List (Place × Conflict)} (hxs : xs.Pairwise fun x y => x.1.Before y.1)
    {y : Place × Conflict} (hy : y ∈ xs) :
    ∃ x ∈ firstPlaces xs, x.2.location = y.2.location ∧ (y = x ∨ x.1.Before y.1) := by
  induction xs with
  | nil => cases hy
  | cons x xs ih =>
    obtain ⟨hx, hxs⟩ := List.pairwise_cons.1 hxs
    by_cases hl : y.2.location = x.2.location
    · refine ⟨x, List.mem_cons_self, hl.symm, ?_⟩
      exact (List.mem_cons.1 hy).imp_right (hx y)
    · have hy : y ∈ xs := (List.mem_cons.1 hy).resolve_left fun h => hl (by rw [h])
      obtain ⟨z, hz, hzl, hzy⟩ := ih hxs hy
      refine ⟨z, List.mem_cons_of_mem x (List.mem_filter.2 ⟨hz, ?_⟩), hzl, hzy⟩
      rw [hzl]
      simpa using hl

/-! ## The list -/

/-- The list has exactly one conflict for each location at which there is a hit. Each reports the first hit there, and
the list is in the order of these first hits. -/
structure ExactConflicts (t : Table) (nameOf : CallableId → String) (ess : List (List Event)) (cs : List Conflict) :
    Prop where
  first : ∃ places, List.Forall₂ (fun c p => c.Reports t nameOf ess p) cs places ∧ places.Pairwise Place.Before
  all : ∀ p l, Hit t ess p l → ∃ c ∈ cs, c.location = l
  nodup : (cs.map Conflict.location).Nodup

section Exact
variable (nameOf) (hess : ∀ es ∈ ess, ∀ a ∈ sights t [] es, a.within.isSome)
include hess

/-- What the detector meets are the hits. -/
theorem Table.hit_iff {p : Place} {l : Location} :
    Hit t ess p l ↔ ∃ c, (p, c) ∈ t.hits nameOf ess ∧ c.location = l := by
  have hsees : ∀ {w r : Record} {es : List Event} {a : Sight}, ess[p.reader]? = some es →
      (accesses t es)[p.access]? = some a → ((t.concerns w r && a.seenBy w r.owner) = true ↔ a.Sees t w r) :=
    fun hes ha => Sight.sees_iff (hess _ (List.mem_of_getElem? hes) _ (mem_accesses.1 (List.mem_of_getElem? ha)))
  constructor
  · rintro ⟨w, r, es, a, hw, hr, hes, ha, hl, hs⟩
    exact ⟨_, mem_hits.2 ⟨w, r, es, a, hw, hr, hes, ha, (hsees hes ha).2 hs, rfl⟩, hl⟩
  · rintro ⟨c, hc, rfl⟩
    obtain ⟨w, r, es, a, hw, hr, hes, ha, hs, rfl⟩ := mem_hits.1 hc
    exact ⟨w, r, es, a, hw, hr, hes, ha, rfl, (hsees hes ha).1 hs⟩

theorem Table.reports_of_mem_firstPlaces {x : Place × Conflict} (hx : x ∈ firstPlaces (t.hits nameOf ess)) :
    x.2.Reports t nameOf ess x.1 := by
  have hmem := (firstPlaces_sublist _).subset hx
  obtain ⟨w, r, es, a, hw, hr, -, -, -, hc⟩ := mem_hits.1 hmem
  refine ⟨(hit_iff nameOf hess).2 ⟨x.2, hmem, rfl⟩, fun q hq => ?_, by simp [hw, hc], by simp [hr, hc], by simp [hc]⟩
  obtain ⟨c, hc, hl⟩ := (hit_iff nameOf hess).1 hq
  obtain ⟨y, hy, hyl, hqy⟩ := exists_firstPlace (t.pairwise_hits nameOf ess) hc
  have hyx : y = x := List.inj_on_of_nodup_map (nodup_firstPlaces _) hy hx (hyl.trans hl)
  rw [← hyx]
  exact hqy.imp_left (congrArg Prod.fst)

theorem Table.exactConflicts : ExactConflicts t nameOf ess
    (t.conflicts nameOf (List.zipWith (fun r es => Replay.noted t r.owner es) t.records ess)) := by
  rw [conflicts_eq, ← map_firstPlaces]
  refine ⟨⟨(firstPlaces (t.hits nameOf ess)).map Prod.fst, ?_, ?_⟩, fun p l hp => ?_, ?_⟩
  · rw [List.forall₂_map_left_iff, List.forall₂_map_right_iff, List.forall₂_same]
    exact fun x hx => reports_of_mem_firstPlaces nameOf hess hx
  · exact List.pairwise_map.2 ((t.pairwise_hits nameOf ess).sublist (firstPlaces_sublist _))
  · obtain ⟨c, hc, rfl⟩ := (hit_iff nameOf hess).1 hp
    obtain ⟨x, hx, hl, -⟩ := exists_firstPlace (t.pairwise_hits nameOf ess) hc
    exact ⟨x.2, List.mem_map_of_mem hx, hl⟩
  · rw [List.map_map]
    exact nodup_firstPlaces _

end Exact

theorem exists_of_getElem?_left {α β : Type} {R : α → β → Prop} {as : List α} {bs : List β}
    (h : List.Forall₂ R as bs) {i : Nat} {a : α} (ha : as[i]? = some a) : ∃ b, bs[i]? = some b ∧ R a b := by
  induction h generalizing i with
  | nil => cases ha
  | cons hr _ ih =>
    cases i with
    | zero =>
      cases ha
      exact ⟨_, rfl, hr⟩
    | succ i => exact ih ha

theorem exists_of_mem_right {α β : Type} {R : α → β → Prop} {as : List α} {bs : List β} (h : List.Forall₂ R as bs)
    {b : β} (hb : b ∈ bs) : ∃ a ∈ as, R a b := by
  induction h with
  | nil => cases hb
  | cons hr _ ih =>
    rcases List.mem_cons.1 hb with rfl | hb
    · exact ⟨_, List.mem_cons_self, hr⟩
    · obtain ⟨a, ha, hab⟩ := ih hb
      exact ⟨a, List.mem_cons_of_mem _ ha, hab⟩

/-- In the replays of records of the table every access is within a candidate. -/
theorem within_isSome_of_eventsOf {m₀ m : Model} (hess : List.Forall₂ (EventsOf m₀ t m) t.records ess) :
    ∀ es ∈ ess, ∀ a ∈ sights t [] es, a.within.isSome := by
  intro es hes
  obtain ⟨r, hr, n, call, -, -, hcallee, -, rfl⟩ := exists_of_mem_right hess hes
  refine within_isSome_traceOf ?_
  rw [hcallee]
  exact Table.contains_iff.2 (List.mem_map_of_mem hr)

namespace Analysis

variable {setup : Setup} {s : Session Model}

/-- Verification of captured records, none of them definitely abrupt, finds exactly the conflicts of their replays. -/
theorem verify_reports_first_hits (setup : Setup) (s : Session Model)
    (hcaptured : ∀ r ∈ s.table.records, ∃ (setup' : Setup) (c : Candidate) (before after : Session Model),
      capture setup' c before = .ok r after)
    (hcompletes : ∀ r ∈ s.table.records, r.effects.result.isDefinitelyAbrupt = false) :
    ∃ ess conflicts s', s.table.records.mapM (replayEvents setup) s = .ok ess s' ∧
      verify setup s = .ok conflicts s' ∧
      ExactConflicts s.table (setup.names.resolve s.evaluator) ess conflicts := by
  have hsimple : ∀ r ∈ s.table.records, ∃ names, r.signature.simpleNames = .ok names := by
    intro r hr
    obtain ⟨setup', c, before, after, hc⟩ := hcaptured r hr
    exact ((capture_ends setup' c before).of_ok hc).2.2.2.1
  have hreplays := mapM_replayEvents_ends setup (Model.Under.refl s.evaluator) hsimple
  cases hx : s.table.records.mapM (replayEvents setup) s with
  | error e s' =>
    simp only [Ends, hx] at hreplays
  | ok ess s' =>
    simp only [Ends, hx] at hreplays
    obtain ⟨⟨htable, hlater⟩, hess⟩ := hreplays
    refine ⟨ess, _, s', rfl, ?_, Table.exactConflicts _ (within_isSome_of_eventsOf hess)⟩
    have hname : setup.names.resolve s'.evaluator = setup.names.resolve s.evaluator :=
      setup.names.resolve_congr hlater.functions
    simp only [verify, replayAll, Bind.bind, EStateM.bind, checkCompletions_ok setup hcompletes, get_apply,
      mapM_replay, hx, mapOutcome, htable, hname, id_eq]
    rfl

/-- Captures two functions of the sample, neither under the commit of the other, and verifies the two records. -/
theorem verify_reports_conflict_of_sample : ∃ (s : Session Model) (ess : List (List Event)) (conflicts : List Conflict)
    (s' : Session Model), s.table.size = 2 ∧ s.table.records.mapM (replayEvents ⟨.empty, 2⟩) s = .ok ess s' ∧
      verify ⟨.empty, 2⟩ s = .ok conflicts s' ∧ conflicts.length = 1 ∧
      ExactConflicts s.table (Names.empty.resolve s.evaluator) ess conflicts := by
  obtain ⟨first, s₁, hfirst, hsecond⟩ := exists_ok
    (x := capture ⟨.empty, 2⟩ ⟨⟨0⟩, .ofCallable ⟨0⟩⟩ (.start Model.sample [] (.new ⟨false, false⟩ none [])))
    (fun first s => match capture ⟨.empty, 2⟩ ⟨⟨1⟩, .ofCallable ⟨1⟩⟩ s with
      | .error _ _ => false
      | .ok second s => ((Table.empty.insert? first).bind (·.insert? second)).any fun table =>
          !first.effects.result.isDefinitelyAbrupt && !second.effects.result.isDefinitelyAbrupt &&
          match verify ⟨.empty, 2⟩ { s with table } with
          | .ok conflicts _ => conflicts.length == 1
          | .error _ _ => false) (by decide +kernel)
  cases hx : capture ⟨.empty, 2⟩ ⟨⟨1⟩, .ofCallable ⟨1⟩⟩ s₁ with
  | error e s => rw [hx] at hsecond; cases hsecond
  | ok second s₂ =>
    simp only [hx] at hsecond
    cases htable : (Table.empty.insert? first).bind (·.insert? second) with
    | none => rw [htable] at hsecond; cases hsecond
    | some table =>
      simp only [htable, Option.any_some, Bool.and_eq_true, Bool.not_eq_true'] at hsecond
      obtain ⟨⟨hcompletes₁, hcompletes₂⟩, hlength⟩ := hsecond
      obtain ⟨t, ht, htable⟩ := Option.bind_eq_some_iff.1 htable
      have hrecords : table.records = [first, second] := by
        rw [Table.records_insert? htable, Table.records_insert? ht]
        rfl
      obtain ⟨ess, conflicts, s', hess, hv, hexact⟩ := verify_reports_first_hits ⟨.empty, 2⟩ { s₂ with table }
        (by simpa [hrecords] using ⟨⟨_, _, _, _, hfirst⟩, ⟨_, _, _, _, hx⟩⟩)
        (by simpa [hrecords] using ⟨hcompletes₁, hcompletes₂⟩)
      rw [hv] at hlength
      exact ⟨{ s₂ with table }, ess, conflicts, s', congrArg List.length hrecords, hess, hv, by simpa using hlength, hexact⟩

end Analysis

end Independence
