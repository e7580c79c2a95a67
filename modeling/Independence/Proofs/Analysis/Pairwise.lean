import Independence.Proofs.Analysis.Conflicts
/-!
# Replaying the reader for each pair

Verification replays each record once and matches its accesses with all writers. To replay the reader anew for each
writer gives the same list, although each replay hands out other objects. What an access looks at was either handed out
before the record was captured, and then every replay sees the same object, or it is newer than all objects to which
the records of the table write.
-/

namespace Independence

variable {m₀ m : Model} {t : Table} {w r : Record} {s u : Session Model} {setup : Setup}

/-! ## Accesses and new objects -/

def Look.rename (g : ObjectId → ObjectId) : Look → Look
  | .read b => .read (b.rename g)
  | .enumerate o => .enumerate (g o)

def Look.object : Look → ObjectId
  | .read b => b.object
  | .enumerate o => o

def Sight.rename (g : ObjectId → ObjectId) (a : Sight) : Sight := { a with look := a.look.rename g }

section Rename
variable (g : ObjectId → ObjectId)

theorem sights_rename (calls : List CallableId) (es : List Event) :
    sights t calls (es.map (Event.rename g)) = (sights t calls es).map (Sight.rename g) := by
  induction es generalizing calls with
  | nil => rfl
  | cons e es ih =>
    have hsight : (e.rename g).sight? t calls = (e.sight? t calls).map (Sight.rename g) := by
      cases e with
      | read b l => cases l <;> rfl
      | enumerate o l => cases l <;> rfl
      | _ => rfl
    have hcalls : (e.rename g).callsAfter calls = e.callsAfter calls := by cases e <;> rfl
    rw [List.map_cons, sights_cons, sights_cons, hsight, hcalls, ih, List.map_append]
    cases e.sight? t calls <;> rfl

theorem accesses_rename (es : List Event) :
    accesses t (es.map (Event.rename g)) = (accesses t es).map (Sight.rename g) := by
  have hread : ∀ a : Sight, (a.rename g).look.isRead = a.look.isRead := by
    intro a
    cases h : a.look <;> simp [Sight.rename, Look.rename, Look.isRead, h]
  rw [accesses, accesses, sights_rename, List.map_append, List.filter_map, List.filter_map]
  simp [Function.comp_def, hread]

end Rename

theorem Look.object_rename (g : ObjectId → ObjectId) (l : Look) : (l.rename g).object = g l.object := by
  cases l <;> rfl

theorem Look.rename_shift_of_lt {n d : Nat} {l : Look} (h : l.object.index < n) : l.rename (.shift n d) = l := by
  cases l with
  | read b => exact congrArg (fun o => Look.read ⟨o, b.key⟩) (ObjectId.shift_of_lt h)
  | enumerate o => exact congrArg Look.enumerate (ObjectId.shift_of_lt h)

/-- Nobody sees writes to objects that are not written to. -/
theorem Sight.seenBy_eq_false {k : Nat} (hw : w.effects.Below k) {a : Sight} (h : k ≤ a.look.object.index)
    (f : CallableId) : a.seenBy w f = false := by
  cases hl : a.look with
  | read b =>
    rw [hl] at h
    have hb : w.effects.writesBinding b = false := by
      by_contra hb
      exact Nat.not_lt.2 h (hw b (by simpa [Effects.writesBinding] using hb))
    simp [seenBy, hl, hb]
  | enumerate o =>
    rw [hl] at h
    have ho : w.effects.writesObject o = false := by
      by_contra ho
      obtain ⟨b, hb, rfl⟩ := Effects.writesObject_iff.1 (Bool.not_eq_false _ ▸ ho)
      exact Nat.not_lt.2 h (hw b hb)
    simp [seenBy, hl, ho]

/-- If the new objects of a replay are newer than those that a record writes to, the replay sees its writes to old
objects only. -/
theorem Sight.seenBy_shift {n d : Nat} (hw : w.effects.Below (n + d)) (f : CallableId) (a : Sight) :
    (a.rename (.shift n d)).seenBy w f = (a.seenBy w f && decide (a.look.object.index < n)) := by
  by_cases h : a.look.object.index < n
  · have hsame : a.rename (.shift n d) = a := by
      rw [Sight.rename, Look.rename_shift_of_lt h]
    simp [hsame, h]
  · have hnew : n + d ≤ (a.rename (.shift n d)).look.object.index := by
      have hobject : (a.rename (.shift n d)).look.object = a.look.object.shift n d := Look.object_rename _ a.look
      rw [hobject, ObjectId.shift_of_le (Nat.not_lt.1 h)]
      exact Nat.add_le_add_right (Nat.not_lt.1 h) d
    simp [Sight.seenBy_eq_false hw hnew, h]

/-- Where the accesses among the events see what `w` writes to objects with numbers below `n`. -/
def Table.seesBelow (t : Table) (n : Nat) (f : CallableId) (es : List Event) (w : Record) : List Location :=
  ((accesses t es).filter fun a => a.seenBy w f && decide (a.look.object.index < n)).map Sight.location

theorem Table.sees_shift {n d : Nat} (hw : w.effects.Below (n + d)) (t : Table) (f : CallableId) (es : List Event) :
    sees w (Replay.noted t f (es.map (Event.rename (.shift n d)))) = t.seesBelow n f es w := by
  have hseen : Sight.seenBy w f ∘ Sight.rename (.shift n d) =
      fun a => a.seenBy w f && decide (a.look.object.index < n) := funext fun a => a.seenBy_shift hw f
  rw [sees_noted, accesses_rename, List.filter_map, List.map_map, hseen]
  rfl

/-- After a discovery, all replays of a record see the same of what the records write. -/
theorem Discovering.sees_replays (hw : m₀.WellFormed) (h : Discovering m₀ [] t m) (hr : r ∈ t.records) :
    ∃ seen : Record → List Location, ∀ es, EventsOf m₀ t m r es → ∀ w ∈ t.records,
      Table.sees w (Replay.noted t r.owner es) = seen w := by
  obtain ⟨above, n, n', hc, hn⟩ := h.captured r hr
  obtain ⟨es₀, hes₀⟩ := hc.reproduces hw
  refine ⟨t.seesBelow n.nextObject r.owner es₀, ?_⟩
  rintro es ⟨k, call, hk, hnext, hcallee, hlocation, rfl⟩ w hwt
  rw [hc.effects_ancestors hr] at hk
  obtain ⟨e, m', htrace, -⟩ := hes₀ k hk (Nat.le_trans hn hnext) call hcallee hlocation
  have hle := Nat.le_trans hc.le_next (Nat.le_trans hn hnext)
  have hbelow : w.effects.Below (n.nextObject + (k.nextObject - n.nextObject)) :=
    (h.below hw hwt).mono (by omega)
  rw [htrace]
  exact Table.sees_shift hbelow t r.owner es₀

namespace Analysis

/-! ## Verification pair by pair -/

section Pairs
variable {m : Type} [Evaluator m]

/-- The conflicts of one reader with one writer. The reader is replayed for this pair alone. -/
def conflictsOfPair (setup : Setup) (writer reader : Record) : Analysis m (List Conflict) := do
  if (← get).table.concerns writer reader then
    let accesses ← replay setup reader
    let name := setup.names.resolve (← get).evaluator writer.owner
    return (Table.sees writer accesses).map fun location => ⟨location, name, writer.owner, reader.owner⟩
  else return []

def conflictsOfWriter (setup : Setup) (writer : Record) : Analysis m (List Conflict) := do
  let conflicts ← (← get).table.records.mapM (conflictsOfPair setup writer)
  return conflicts.flatten

/-- The conflicts by writer and then reader, the first one at each location, with a replay for each pair. -/
def conflictsOfPairs (setup : Setup) : Analysis m (List Conflict) := do
  let conflicts ← (← get).table.records.mapM (conflictsOfWriter setup)
  return Conflict.firstAtEach conflicts.flatten

/-- Finds all conflicts pair by pair, provided that no candidate throws on every path. -/
def verifyPairwise (setup : Setup) : Analysis m (List Conflict) := do
  checkCompletions setup
  conflictsOfPairs setup

/-- The conflicts with one replay of each record, as verification finds them. -/
def conflictsOfReplays (setup : Setup) : Analysis m (List Conflict) := do
  let observed ← replayAll setup
  let s ← get
  return s.table.conflicts (setup.names.resolve s.evaluator) observed

/-- What a step returns, or how it fails, in whatever state it leaves. -/
def result {α : Type} (x : Analysis m α) (s : Session m) : Except Failure α :=
  match x s with
  | .ok a _ => .ok a
  | .error e _ => .error e

end Pairs

/-- A step that keeps `I` and returns `g a` for each `a` returns all of them for a list. -/
theorem Ends.mapM_eq {m α β : Type} {I : Session m → Prop} {E : Failure → Session m → Prop} {g : α → β}
    {x : α → Analysis m β} {as : List α} {s : Session m}
    (h : ∀ a ∈ as, ∀ t, I t → (x a).Ends t (fun b u => I u ∧ b = g a) E) (hs : I s) :
    (as.mapM x).Ends s (fun bs t => I t ∧ bs = as.map g) E := by
  refine (Ends.mapM (R := fun a b => b = g a) h hs).mono (fun bs t ht => ⟨ht.1, ?_⟩) fun _ _ h => h
  have hflip : List.Forall₂ Eq (as.map g) bs := List.forall₂_map_left_iff.2 (ht.2.imp fun _ _ h => h.symm)
  exact (List.forall₂_eq_eq_eq ▸ hflip : as.map g = bs).symm

/-- The session still has the table of `s`, and of the model only the counters moved since. -/
def After (s u : Session Model) : Prop := u.table = s.table ∧ s.evaluator.Under [] u.evaluator

/-- Whenever the records of `s` are replayed after `s`, a replay of `r` sees writes of `w` in the places `seen w r`. -/
def Steady (s : Session Model) (seen : Record → Record → List Location) : Prop :=
  ∀ r ∈ s.table.records, ∀ (setup : Setup) (u : Session Model), After s u →
    (replay setup r).Ends u (fun a v => After s v ∧ ∀ w ∈ s.table.records, Table.sees w a = seen w r) fun _ _ => False

/-- All replays of a record `r` of `t` after `m` see writes of `w` in the places `seen w r`. -/
def SeenIn (m₀ : Model) (t : Table) (m : Model) (seen : Record → Record → List Location) : Prop :=
  ∀ r ∈ t.records, ∀ es, EventsOf m₀ t m r es → ∀ w ∈ t.records, Table.sees w (Replay.noted t r.owner es) = seen w r

theorem exists_seenIn (hw : m₀.WellFormed) (h : Discovering m₀ [] t m) : ∃ seen, SeenIn m₀ t m seen := by
  have hall : ∀ r : Record, ∃ seen : Record → List Location, r ∈ t.records → ∀ es, EventsOf m₀ t m r es →
      ∀ w ∈ t.records, Table.sees w (Replay.noted t r.owner es) = seen w := by
    intro r
    by_cases hr : r ∈ t.records
    · obtain ⟨seen, hseen⟩ := h.sees_replays hw hr
      exact ⟨seen, fun _ => hseen⟩
    · exact ⟨fun _ => [], fun h => absurd h hr⟩
  choose seen hseen using hall
  exact ⟨fun w r => seen r w, fun r hr => hseen r hr⟩

theorem SeenIn.steady {seen : Record → Record → List Location} (hseen : SeenIn m₀ s.table s.evaluator seen)
    (h : Discovering m₀ [] s.table s.evaluator) : Steady s seen := by
  refine fun r hr setup u hu => ?_
  have hreplay := replayEvents_ends setup (h.under.later hu.2) (h.simple hr)
  simp only [Ends, replay_eq] at hreplay ⊢
  cases hx : replayEvents setup r u with
  | error e v =>
    rw [hx] at hreplay
    exact hreplay.elim
  | ok es v =>
    rw [hx] at hreplay
    obtain ⟨⟨htable, hlater⟩, k, call, hk, hnext, hcall⟩ := hreplay
    rw [hu.1] at hk htable
    refine ⟨⟨htable, hu.2.later hlater⟩, fun w hwt => ?_⟩
    have hes : EventsOf m₀ s.table s.evaluator r es := ⟨k, call, hk, Nat.le_trans hu.2.le_next hnext, hcall⟩
    rw [hu.1]
    exact hseen r hr es hes w hwt

/-! ## The same list -/

/-- The conflict at each place where `r` sees a write of `w`, unless `w` is an ancestor of `r` or `r` itself. -/
def pairConflicts (t : Table) (nameOf : CallableId → String) (seen : Record → Record → List Location) (w r : Record) :
    List Conflict :=
  if t.concerns w r then (seen w r).map fun location => ⟨location, nameOf w.owner, w.owner, r.owner⟩ else []

def writerConflicts (t : Table) (nameOf : CallableId → String) (seen : Record → Record → List Location) (w : Record) :
    List Conflict :=
  t.records.flatMap (pairConflicts t nameOf seen w)

def allConflicts (t : Table) (nameOf : CallableId → String) (seen : Record → Record → List Location) : List Conflict :=
  Conflict.firstAtEach (t.records.flatMap (writerConflicts t nameOf seen))

theorem flatMap_zip_of_forall₂ {α β γ : Type} {R : α → β → Prop} {as : List α} {bs : List β}
    (h : List.Forall₂ R as bs) {x : α × β → List γ} {y : α → List γ} (hxy : ∀ a b, R a b → x (a, b) = y a) :
    (as.zip bs).flatMap x = as.flatMap y := by
  induction h with
  | nil => rfl
  | cons hr _ ih => simp [hxy _ _ hr, ih]

section Steady
variable {seen : Record → Record → List Location} (h : Steady s seen) (hu : After s u)
include h hu

/-! One replay of each record. -/

theorem conflictsOfReplays_ends : (conflictsOfReplays setup).Ends u
    (fun conflicts _ => conflicts = allConflicts s.table (setup.names.resolve s.evaluator) seen) fun _ _ => False := by
  refine Ends.bind (Q := fun observed v => After s v ∧
    List.Forall₂ (fun r a => ∀ w ∈ s.table.records, Table.sees w a = seen w r) s.table.records observed) ?_ ?_
  · refine Ends.get ?_
    rw [hu.1]
    exact Ends.mapM (fun r hr v hv => h r hr setup v hv) hu
  · rintro observed v ⟨hv, hobserved⟩
    refine Ends.get (Ends.pure ?_)
    rw [hv.1, setup.names.resolve_congr hv.2.functions, Table.conflicts, allConflicts]
    refine congrArg Conflict.firstAtEach (List.flatMap_congr fun w hw => ?_)
    refine flatMap_zip_of_forall₂ hobserved fun r a ha => ?_
    simp only [pairConflicts, ha w hw]

/-! A replay for each pair. -/

theorem conflictsOfPair_ends (hw : w ∈ s.table.records) (hr : r ∈ s.table.records) : (conflictsOfPair setup w r).Ends u
    (fun conflicts v => After s v ∧
      conflicts = pairConflicts s.table (setup.names.resolve s.evaluator) seen w r) fun _ _ => False := by
  refine Ends.get ?_
  rw [hu.1, pairConflicts]
  split
  · refine Ends.bind (h r hr setup u hu) ?_
    rintro a v ⟨hv, ha⟩
    refine Ends.get (Ends.pure ⟨hv, ?_⟩)
    rw [ha w hw, setup.names.resolve_congr hv.2.functions]
  · exact Ends.pure ⟨hu, rfl⟩

theorem conflictsOfWriter_ends (hw : w ∈ s.table.records) : (conflictsOfWriter setup w).Ends u
    (fun conflicts v => After s v ∧
      conflicts = writerConflicts s.table (setup.names.resolve s.evaluator) seen w) fun _ _ => False := by
  refine Ends.get ?_
  rw [hu.1]
  refine Ends.bind (Ends.mapM_eq (fun r hr v hv => conflictsOfPair_ends h hv hw hr) hu) ?_
  rintro _ v ⟨hv, rfl⟩
  exact Ends.pure ⟨hv, rfl⟩

theorem conflictsOfPairs_ends : (conflictsOfPairs setup).Ends u
    (fun conflicts _ => conflicts = allConflicts s.table (setup.names.resolve s.evaluator) seen) fun _ _ => False := by
  refine Ends.get ?_
  rw [hu.1]
  refine Ends.bind (Ends.mapM_eq (fun w hw v hv => conflictsOfWriter_ends h hv hw) hu) ?_
  rintro _ v ⟨-, rfl⟩
  exact Ends.pure rfl

end Steady

/-- Behind the check of completions, all steps that return the same return the same together with it. -/
theorem result_checkCompletions {x : Analysis Model (List Conflict)} {conflicts : List Conflict}
    (hx : ∀ u, After s u → x.Ends u (fun cs _ => cs = conflicts) fun _ _ => False) :
    (checkCompletions setup >>= fun _ => x).result s = ((checkCompletions setup).result s).map fun _ => conflicts := by
  have hcheck := checkCompletions_ends setup s
  simp only [Ends, result, Bind.bind, EStateM.bind] at hcheck ⊢
  cases hc : checkCompletions setup s with
  | error f u => rfl
  | ok _ u =>
    rw [hc] at hcheck
    obtain ⟨reporter, rfl⟩ := hcheck
    have hends := hx { s with reporter } ⟨rfl, .refl _⟩
    unfold Ends at hends
    cases hy : x { s with reporter } with
    | error f v =>
      rw [hy] at hends
      exact hends.elim
    | ok cs v =>
      rw [hy] at hends
      simp only [Except.map, ← hends, hy]

/-- After a discovery, to verify with one replay of each record and to verify with a replay for each pair comes to the
same: the same list of conflicts, or the same failure on records that are definitely abrupt. -/
theorem verify_eq_verifyPairwise {m₀ : Model} (hw : m₀.WellFormed) {setup : Setup} {roots : List Request}
    {reporter : Reporter} {s : Session Model} (hd : discover setup (.start m₀ roots reporter) = .ok () s) :
    (verify setup).result s = (verifyPairwise setup).result s ∧
    ((∀ r ∈ s.table.records, r.effects.result.isDefinitelyAbrupt = false) →
      ∃ conflicts, (verify setup).result s = .ok conflicts) := by
  have hamid : Amid m₀ [] [] s := (discover_ends hw setup roots reporter).of_ok hd
  obtain ⟨seen, hseen⟩ := exists_seenIn hw hamid.discovering
  have hseen : Steady s seen := hseen.steady hamid.discovering
  have hverify : (verify setup).result s = _ :=
    result_checkCompletions fun _ hu => conflictsOfReplays_ends hseen hu
  have hpairwise : (verifyPairwise setup).result s = _ :=
    result_checkCompletions fun _ hu => conflictsOfPairs_ends hseen hu
  refine ⟨hverify.trans hpairwise.symm, fun hcompletes => ?_⟩
  have hchecked : (checkCompletions setup).result s = .ok () := by
    rw [result, checkCompletions_ok setup hcompletes]
  rw [hverify, hchecked]
  exact ⟨_, rfl⟩

/-- On the sample, the second function requested before the first one conflicts with it, both ways. -/
theorem verify_eq_verifyPairwise_sample : ∃ (s : Session Model) (conflicts : List Conflict),
    discover ⟨.empty, 2⟩ (.start .sample [.ofCallable ⟨1⟩, .ofCallable ⟨0⟩, .ofCallable ⟨2⟩]
      (.new ⟨false, true⟩ none [])) = .ok () s ∧ s.table.size = 3 ∧ conflicts.length = 1 ∧
    (verify ⟨.empty, 2⟩).result s = .ok conflicts ∧ (verifyPairwise ⟨.empty, 2⟩).result s = .ok conflicts := by
  obtain ⟨⟨⟩, s, hd, hseen⟩ := exists_ok
    (x := discover ⟨.empty, 2⟩ (.start Model.sample [.ofCallable ⟨1⟩, .ofCallable ⟨0⟩, .ofCallable ⟨2⟩]
      (.new ⟨false, true⟩ none [])))
    (fun _ s => s.table.size == 3 && s.table.records.all (!·.effects.result.isDefinitelyAbrupt) &&
      match (verify ⟨.empty, 2⟩).result s with
      | .ok conflicts => conflicts.length == 1
      | .error _ => false) (by decide +kernel)
  simp only [Bool.and_eq_true, List.all_eq_true, Bool.not_eq_true', beq_iff_eq] at hseen
  obtain ⟨⟨hsize, hcompletes⟩, hlength⟩ := hseen
  obtain ⟨heq, hok⟩ := verify_eq_verifyPairwise Model.wellFormed_sample hd
  obtain ⟨conflicts, hconflicts⟩ := hok hcompletes
  rw [hconflicts] at hlength
  exact ⟨s, conflicts, hd, hsize, by simpa using hlength, hconflicts, heq ▸ hconflicts⟩

end Analysis

end Independence
