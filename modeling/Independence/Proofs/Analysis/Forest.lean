import Mathlib.Data.List.Basic
import Independence.Proofs.Analysis.Ancestry
import Independence.Proofs.Analysis.Processing
/-!
# The forest of candidates

The parents of the records make a forest, and the table lists it in preorder: discovery goes depth first, and what a
candidate revealed comes behind it before anything else does. Each commit has a baseline of its own, so that the
records of one baseline are the children of one parent. All of this holds at any moment of a discovery, and so
however it ends.
-/

namespace Independence

variable {t t' : Table} {r : Record} {opened : List Record} {committed : List CallableId} {limit : Nat}
  {queue : List Request} {s u : Session Model} {f : CallableId} {request : Request}

namespace Table

/-- What the records without a parent were requested by, in the order of the table. -/
def rootRequests (t : Table) : List Request := (t.records.filter (·.parent.isNone)).map (·.candidate.request)

/-- The table is a forest in preorder, less than `limit` deep, with roots in the order of `queue`. Its index has the place of
each record and no other places. Here `[p, r]` is a sublist of the records if `p` stands before `r`. -/
structure IsForest (t : Table) (limit : Nat) (queue : List Request) : Prop where
  distinct : t.owners.Nodup
  places : ∀ f i, t.index[f]? = some i ↔ ∃ r : Record, t.records[i]? = some r ∧ r.owner = f
  lookup : ∀ f r, t.get? f = some r ↔ r ∈ t.records ∧ r.owner = f
  parents : ∀ r ∈ t.records, r.parent = none ∧ r.baseline = .global ∨
    r.baseline ≠ .global ∧ ∃ p, r.parent = some p.owner ∧ [p, r].Sublist t.records
  preorder : ∀ a b c, [a, b, c].Sublist t.records → t.Ancestor a.owner c.owner → t.Ancestor a.owner b.owner
  roots : t.rootRequests.Sublist queue
  baselines : ∀ q ∈ t.records, ∀ r ∈ t.records, q.baseline = r.baseline ↔ q.parent = r.parent
  shallow : ∀ r ∈ t.records, t.Chain r.parent (t.ancestors r.owner).reverse ∧ (t.ancestors r.owner).length < limit

/-! ## Adding records -/

/-- The baseline under a parent, when the effects of the candidates `committed` were committed in this order. -/
def baselineUnder (committed : List CallableId) : Option CallableId → BaselineId
  | none => .global
  | some p => ⟨committed.idxOf p + 1⟩

theorem baselineUnder_append {x : Option CallableId} (h : ∀ p, x = some p → p ∈ committed) (fs : List CallableId) :
    baselineUnder (committed ++ fs) x = baselineUnder committed x := by
  cases x with
  | none => rfl
  | some p => simp [baselineUnder, List.idxOf_append_of_mem (h p rfl)]

theorem baselineUnder_inj {x y : Option CallableId} (h : ∀ p, x = some p → p ∈ committed) :
    baselineUnder committed x = baselineUnder committed y ↔ x = y := by
  cases x with
  | none => cases y <;> simp [baselineUnder, BaselineId.global]
  | some p => cases y <;> simp [baselineUnder, BaselineId.global, List.idxOf_inj (h p rfl)]

/-- Where records stand in order among others and a last one, they do so without it, or the last of them is that one. -/
theorem sublist_concat (xs : List Record) {x : Record} {rs : List Record} (h : (xs ++ [x]).Sublist (rs ++ [r])) :
    (xs ++ [x]).Sublist rs ∨ xs.Sublist rs ∧ x = r := by
  rw [← List.reverse_sublist] at h
  simp only [List.reverse_append, List.reverse_singleton, List.singleton_append, List.sublist_cons_iff] at h
  rcases h with h | ⟨ys, hcons, hys⟩
  · exact .inl (by simpa using List.reverse_sublist.2 h)
  · obtain ⟨rfl, rfl⟩ := List.cons.inj hcons
    exact .inr ⟨List.reverse_sublist.1 hys, rfl⟩

/-- The table while the effects of the records `opened` are committed, innermost first: they are a chain of parents,
and all records behind one of them are below it. The callables `committed` had their effects committed by now. -/
structure Growing (t : Table) (limit : Nat) (queue : List Request) (committed : List CallableId)
    (opened : List Record) : Prop where
  chain : t.Chain (opened.head?.map Record.owner) opened
  inside : ∀ a ∈ opened, a.owner ∈ committed ∧ ∀ b, [a, b].Sublist t.records → t.Ancestor a.owner b.owner
  captured : committed ⊆ t.owners
  baselines : ∀ r ∈ t.records, r.baseline = baselineUnder committed r.parent
  parents : ∀ r ∈ t.records, ∀ p, r.parent = some p → p ∈ committed ∧ ∃ q, q.owner = p ∧ [q, r].Sublist t.records
  chains : ∀ r ∈ t.records, ∃ above, t.Chain r.parent above ∧ above.length < limit
  preorder : ∀ a b c, [a, b, c].Sublist t.records → t.Ancestor a.owner c.owner → t.Ancestor a.owner b.owner
  roots : t.rootRequests.Sublist queue

namespace Growing

theorem empty : Growing .empty limit queue [] [] where
  chain := .root
  inside := by simp
  captured := by simp
  baselines := by simp [Table.empty]
  parents := by simp [Table.empty]
  chains := by simp [Table.empty]
  preorder := by simp [Table.empty]
  roots := by simp [Table.empty, rootRequests]

/-- Whatever the requests that are still to come. -/
theorem waiting (h : t.Growing limit queue committed opened) (requests : List Request) :
    t.Growing limit (queue ++ requests) committed opened :=
  { h with roots := h.roots.trans (List.sublist_append_left _ _) }

section Insert
variable (h : t.Growing limit queue committed opened) (ht : t.insert? r = some t')
include h ht

/-- A record added later has no part in the ancestors of the ones before. -/
theorem ancestor_insert? {c : Record} (hc : c ∈ t.records) (a : CallableId) :
    t'.Ancestor a c.owner ↔ t.Ancestor a c.owner := by
  obtain ⟨above, habove, -⟩ := h.chains c hc
  have habove' := habove.mono fun _ _ => get?_insert? ht
  rw [← parent?_owner hc] at habove
  rw [← parent?_owner ((mem_records_insert? ht).2 (.inl hc))] at habove'
  rw [habove.ancestor_iff, habove'.ancestor_iff]

variable (hp : r.parent = opened.head?.map Record.owner)
include hp

/-- The ancestors of a record added now are the open records. -/
theorem ancestor_new (a : CallableId) : t'.Ancestor a r.owner ↔ ∃ q ∈ opened, q.owner = a := by
  refine Chain.ancestor_iff ?_
  rw [parent?_owner ((mem_records_insert? ht).2 (.inr rfl)), hp]
  exact h.chain.mono fun _ _ => get?_insert? ht

theorem inside_insert? {a b : Record} (ha : a ∈ opened) (hab : [a, b].Sublist t'.records) :
    t'.Ancestor a.owner b.owner := by
  rw [records_insert? ht] at hab
  rcases sublist_concat [a] hab with hab | ⟨-, rfl⟩
  · have hb : b ∈ t.records := hab.subset (by simp)
    exact (h.ancestor_insert? ht hb _).2 ((h.inside a ha).2 b hab)
  · exact (h.ancestor_new ht hp _).2 ⟨a, ha, rfl⟩

/-- Between an open record and a record added now, all records are below the open one. -/
theorem preorder_insert? {a b c : Record} (habc : [a, b, c].Sublist t'.records) (hac : t'.Ancestor a.owner c.owner) :
    t'.Ancestor a.owner b.owner := by
  rw [records_insert? ht] at habc
  rcases sublist_concat [a, b] habc with habc | ⟨hab, rfl⟩
  · have hb : b ∈ t.records := habc.subset (by simp)
    have hc : c ∈ t.records := habc.subset (by simp)
    rw [h.ancestor_insert? ht hc] at hac
    exact (h.ancestor_insert? ht hb _).2 (h.preorder a b c habc hac)
  · have ha : a ∈ t.records := hab.subset (by simp)
    have hb : b ∈ t.records := hab.subset (by simp)
    obtain ⟨q, hq, howner⟩ := (h.ancestor_new ht hp _).1 hac
    have hqa : q = a := List.inj_on_of_nodup_map t.nodup_owners (h.chain.mem_records hq) ha howner
    rw [hqa] at hq
    exact (h.ancestor_insert? ht hb _).2 ((h.inside a hq).2 b hab)

theorem parents_insert? {q : Record} (hq : q ∈ t'.records) {p : CallableId} (hqp : q.parent = some p) :
    p ∈ committed ∧ ∃ a, a.owner = p ∧ [a, q].Sublist t'.records := by
  rw [records_insert? ht]
  rcases (mem_records_insert? ht).1 hq with hq | rfl
  · obtain ⟨hpc, a, ha, hbefore⟩ := h.parents q hq p hqp
    exact ⟨hpc, a, ha, hbefore.trans (List.sublist_append_left _ _)⟩
  · rw [hp] at hqp
    obtain ⟨a, ha, rfl⟩ := Option.map_eq_some_iff.1 hqp
    have ha : a ∈ opened := List.mem_of_mem_head? ha
    exact ⟨(h.inside a ha).1, a, rfl, (List.singleton_sublist.2 (h.chain.mem_records ha)).append_right [q]⟩

theorem roots_insert? (hroot : opened = [] → (t.rootRequests ++ [r.candidate.request]).Sublist queue) :
    t'.rootRequests.Sublist queue := by
  have hsplit : t'.rootRequests = t.rootRequests ++ if r.parent.isNone then [r.candidate.request] else [] := by
    rw [rootRequests, records_insert? ht, List.filter_append, List.map_append, rootRequests]
    cases hn : r.parent.isNone <;> simp [hn]
  cases opened with
  | nil =>
    have hn : r.parent = none := hp
    simpa [hsplit, hn] using hroot rfl
  | cons a opened =>
    have hn : r.parent = some a.owner := hp
    simpa [hsplit, hn] using h.roots

theorem insert (hb : r.baseline = baselineUnder committed r.parent) (hlimit : opened.length < limit)
    (hroot : opened = [] → (t.rootRequests ++ [r.candidate.request]).Sublist queue) :
    t'.Growing limit queue committed opened where
  chain := h.chain.mono fun _ _ => get?_insert? ht
  inside a ha := ⟨(h.inside a ha).1, fun _ => h.inside_insert? ht hp ha⟩
  captured p hpc := by
    have hpt := h.captured hpc
    rw [owners, records_insert? ht, List.map_append]
    exact List.mem_append_left _ hpt
  baselines q hq := by
    rcases (mem_records_insert? ht).1 hq with hq | rfl
    · exact h.baselines q hq
    · exact hb
  parents q hq _ := h.parents_insert? ht hp hq
  chains q hq := by
    rcases (mem_records_insert? ht).1 hq with hq | rfl
    · obtain ⟨above, habove, hlen⟩ := h.chains q hq
      exact ⟨above, habove.mono fun _ _ => get?_insert? ht, hlen⟩
    · refine ⟨opened, ?_, hlimit⟩
      rw [hp]
      exact h.chain.mono fun _ _ => get?_insert? ht
  preorder _ _ _ := h.preorder_insert? ht hp
  roots := h.roots_insert? ht hp hroot

end Insert

/-- The effects of the record added last are committed. -/
theorem commit (h : t'.Growing limit queue committed opened) (ht : t.insert? r = some t')
    (hp : r.parent = opened.head?.map Record.owner) : t'.Growing limit queue (committed ++ [r.owner]) (r :: opened) := by
  have hr : r ∈ t'.records := (mem_records_insert? ht).2 (.inr rfl)
  refine ⟨.step (get?_owner hr) (hp ▸ h.chain), fun a ha => ?_, fun p hpc => ?_, fun q hq => ?_, fun q hq p hqp => ?_,
    h.chains, h.preorder, h.roots⟩
  · rcases List.mem_cons.1 ha with rfl | ha
    · refine ⟨by simp, fun b hab => ?_⟩
      -- Nothing stands behind the last record.
      have hnew : a ∉ t.records := fun hat => owner_notMem_of_insert? ht (List.mem_map_of_mem hat)
      rw [records_insert? ht] at hab
      rcases sublist_concat [a] hab with hab | ⟨hab, -⟩
      · exact absurd (hab.subset (by simp)) hnew
      · exact absurd (hab.subset (by simp)) hnew
    · exact ⟨List.mem_append_left _ (h.inside a ha).1, (h.inside a ha).2⟩
  · rcases List.mem_append.1 hpc with hpc | hpc
    · exact h.captured hpc
    · rw [List.mem_singleton.1 hpc]
      exact List.mem_map_of_mem hr
  · rw [h.baselines q hq, baselineUnder_append fun p hqp => (h.parents q hq p hqp).1]
  · obtain ⟨hpc, hbefore⟩ := h.parents q hq p hqp
    exact ⟨List.mem_append_left _ hpc, hbefore⟩

/-- The commit of the innermost open record is over. -/
theorem leave (h : t.Growing limit queue committed (r :: opened)) : t.Growing limit queue committed opened := by
  refine { h with chain := ?_, inside := fun a ha => h.inside a (List.mem_cons_of_mem r ha) }
  obtain _ | ⟨-, hchain⟩ := h.chain
  exact hchain.eq_head ▸ hchain

theorem isForest (h : t.Growing limit queue committed opened) : t.IsForest limit queue where
  distinct := t.nodup_owners
  places f i := (t.indexed f i).trans Option.map_eq_some_iff
  lookup _ _ := get?_eq_some_iff
  parents r hr := by
    have hb := h.baselines r hr
    cases hp : r.parent with
    | none => exact .inl ⟨rfl, by rw [hb, hp]; rfl⟩
    | some p =>
      obtain ⟨-, q, rfl, hbefore⟩ := h.parents r hr p hp
      exact .inr ⟨by simp [hb, hp, baselineUnder, BaselineId.global], q, rfl, hbefore⟩
  preorder := h.preorder
  roots := h.roots
  baselines q hq r hr := by
    rw [h.baselines q hq, h.baselines r hr]
    exact baselineUnder_inj fun p hp => (h.parents q hq p hp).1
  shallow r hr := by
    obtain ⟨above, habove, hlen⟩ := h.chains r hr
    have hancestors := (parent?_owner hr ▸ habove : t.Chain (t.parent? r.owner) above).ancestors
    rw [hancestors, List.reverse_reverse, List.length_reverse]
    exact ⟨habove, hlen⟩

end Growing

end Table

/-! ## Discovery -/

/-- The session is in the middle of a discovery: its frames are those of the open records, each with the baseline of
its commit, and the table is a growing forest. -/
structure Session.Growing (s : Session Model) (limit : Nat) (queue : List Request) (committed : List CallableId)
    (opened : List Record) : Prop where
  frames : s.traversal.frames.map (fun frame => (frame.candidate, frame.baseline)) =
    opened.map fun r => (r.owner, some (Table.baselineUnder committed (some r.owner)))
  commits : s.traversal.commits = committed.length
  table : s.table.Growing limit queue committed opened

namespace Session.Growing

theorem start (m : Model) (roots : List Request) (reporter : Reporter) :
    (Session.start m roots reporter).Growing limit [] [] [] :=
  ⟨rfl, rfl, .empty⟩

theorem noted (h : s.Growing limit queue committed opened) (ht : u.table = s.table)
    (hf : u.traversal = s.traversal) : u.Growing limit queue committed opened :=
  ⟨by rw [hf, h.frames], by rw [hf, h.commits], by rw [ht]; exact h.table⟩

theorem waiting (h : s.Growing limit queue committed opened) (requests : List Request) :
    s.Growing limit (queue ++ requests) committed opened :=
  ⟨h.frames, h.commits, h.table.waiting requests⟩

/-- A candidate entered now is captured under the innermost open record, and under the baseline of its commit. -/
theorem enclosing (h : s.Growing limit queue committed opened) : s.traversal.parent? = opened.head?.map Record.owner ∧
    s.traversal.baseline = Table.baselineUnder committed (opened.head?.map Record.owner) := by
  have hframes := h.frames
  cases hf : s.traversal.frames with
  | nil =>
    rw [hf] at hframes
    obtain rfl : opened = [] := List.map_eq_nil_iff.1 hframes.symm
    simp [Traversal.parent?, Traversal.baseline, Traversal.committed?, hf, Table.baselineUnder]
  | cons frame frames =>
    cases opened with
    | nil => simp [hf] at hframes
    | cons a opened =>
      rw [hf, List.map_cons, List.map_cons] at hframes
      obtain ⟨hcandidate, hbaseline⟩ := Prod.mk.inj (List.cons.inj hframes).1
      simp [Traversal.parent?, Traversal.baseline, Traversal.committed?, hf, hcandidate, hbaseline]

/-- A candidate whose capture failed is left. -/
theorem leave (h : s.Growing limit queue committed opened) (hk : ((s.accept f request).enter f).Kept u) :
    u.leave.Growing limit queue committed opened :=
  ⟨by rw [hk.traversal_leave, h.frames], by rw [hk.traversal_leave, h.commits], hk.table ▸ h.table⟩

section Gains
variable (h : s.Growing limit queue committed opened)
  (hg : ((s.accept f request).enter f).Gains ⟨f, request⟩ r u)
include h hg

/-- The record that is added stands below the innermost open one. -/
theorem parent_gains : r.parent = opened.head?.map Record.owner := hg.parent.trans h.enclosing.1

variable (hlimit : opened.length < limit)
  (hroot : opened = [] → (s.table.rootRequests ++ [request]).Sublist queue)
include hlimit hroot

theorem table_gains : u.table.Growing limit queue committed opened := by
  have hp := h.parent_gains hg
  refine h.table.insert hg.table hp ?_ hlimit ?_
  · rw [hp]
    exact hg.baseline.trans h.enclosing.2
  · rw [hg.candidate]
    exact hroot

theorem single : u.leave.Growing limit queue committed opened := by
  have htable := h.table_gains hg hlimit hroot
  exact ⟨by rw [hg.traversal_leave, h.frames], by rw [hg.traversal_leave, h.commits], htable⟩

/-- Its effects are committed under a baseline of their own. -/
theorem commit : (u.commit r.effects).Growing limit queue (committed ++ [f]) (r :: opened) := by
  have howner : r.owner = f := congrArg Candidate.callable hg.candidate
  have htable := (h.table_gains hg hlimit hroot).commit hg.table (h.parent_gains hg)
  have hnew : f ∉ committed := by
    intro hf
    refine Table.owner_notMem_of_insert? hg.table ?_
    rw [howner]
    exact h.table.captured hf
  refine ⟨?_, ?_, howner ▸ htable⟩
  · have hself : Table.baselineUnder (committed ++ [f]) (some f) = ⟨s.traversal.commits + 1⟩ := by
      simp [Table.baselineUnder, List.idxOf_append_of_notMem hnew, h.commits]
    have hbefore : ∀ a ∈ opened, Table.baselineUnder (committed ++ [f]) (some a.owner) =
        Table.baselineUnder committed (some a.owner) := fun a ha =>
      Table.baselineUnder_append (fun p hp => Option.some.inj hp ▸ (h.table.inside a ha).1) [f]
    rw [hg.traversal_commit, List.map_cons, List.map_cons, h.frames, howner, hself]
    exact congrArg _ (List.map_congr_left fun a ha => by rw [hbefore a ha])
  · rw [hg.traversal_commit, h.commits, List.length_append, List.length_singleton]

end Gains

/-- Whatever was committed in between, the frame of the record is left and the ones below are as they were. -/
theorem unwind (h : u.Growing limit queue committed (r :: opened)) (e : Effects) :
    (s.unwind e u).Growing limit queue committed opened := by
  have hframes := h.frames
  cases hf : u.traversal.frames with
  | nil => simp [hf] at hframes
  | cons frame frames =>
    rw [hf, List.map_cons, List.map_cons] at hframes
    have htraversal := traversal_unwind hf s e
    exact ⟨by rw [htraversal, (List.cons.inj hframes).2], by rw [htraversal, h.commits], h.table.leave⟩

end Session.Growing

namespace Analysis

variable (setup : Setup)

/-- Processing a request grows the forest, with everything that the request reveals below the open records. -/
theorem process_grows (levels : Nat) (request : Request) (hs : s.Growing limit queue committed opened)
    (hlevels : opened.length + levels ≤ limit)
    (hroot : opened = [] → (s.table.rootRequests ++ [request]).Sublist queue) :
    (process setup levels request).Ends s (fun _ t => ∃ committed, t.Growing limit queue committed opened)
      fun _ t => ∃ committed, t.Growing limit queue committed opened := by
  induction levels using Nat.strongRecOn generalizing request s committed opened with
  | ind levels ih =>
    refine Ends.process (fun _ _ _ => ⟨committed, hs.noted rfl rfl⟩) (fun _ _ _ _ => ⟨committed, hs.noted rfl rfl⟩)
      (fun _ _ _ _ h => ⟨committed, hs.leave h.kept⟩)
      (fun _ _ _ _ hpos h => ⟨committed, hs.single h (by omega) hroot⟩) ?_
    rintro f r t rest requests - rfl h
    -- What the candidate revealed is processed with its record open, so below it and with one level less.
    have hnested : (requests.forM (process setup rest)).Ends (t.commit r.effects)
        (fun _ u => ∃ committed, u.Growing limit queue committed (r :: opened))
        fun _ u => ∃ committed, u.Growing limit queue committed (r :: opened) := by
      refine Ends.forM (I := fun u => ∃ committed, u.Growing limit queue committed (r :: opened)) ?_
        ⟨_, hs.commit h (by omega) hroot⟩
      rintro request - u ⟨later, hu⟩
      have hlevels : (r :: opened).length + rest ≤ limit := by
        rw [List.length_cons]
        omega
      exact ih rest (Nat.lt_succ_self _) request hu hlevels (by simp)
    exact hnested.mono (fun _ _ ⟨_, hu⟩ => ⟨_, hu.unwind r.effects⟩) fun _ _ ⟨_, hu⟩ => ⟨_, hu.unwind r.effects⟩

/-- No record is open, and of the requests in `roots` those in `waiting` are still to be processed. -/
def Between (limit : Nat) (roots waiting : List Request) (t : Session Model) : Prop :=
  ∃ processed committed, processed ++ waiting = roots ∧ t.Growing limit processed committed []

theorem Between.isForest {roots waiting : List Request} (h : Between limit roots waiting u) :
    u.table.IsForest limit roots := by
  obtain ⟨processed, committed, rfl, hu⟩ := h
  exact (hu.waiting waiting).table.isForest

theorem drain_grows (roots waiting : List Request) (hs : Between setup.maxNesting roots waiting s) :
    (drain setup waiting).Ends s (fun _ => Between setup.maxNesting roots [])
      fun _ t => t.table.IsForest setup.maxNesting roots := by
  refine Ends.drain (fun request waiting t ht => ?_) hs
  obtain ⟨processed, committed, rfl, ht⟩ := ht
  have hnext : t.Growing setup.maxNesting (processed ++ [request]) committed [] := ht.waiting [request]
  have hlevels : ([] : List Record).length + (setup.maxNesting - t.traversal.depth) ≤ setup.maxNesting := by simp
  have hprocess := process_grows setup (s := { t with queue := waiting }) _ request (hnext.noted rfl rfl) hlevels
    fun _ => ht.table.roots.append_right [request]
  have hbetween : ∀ u, (∃ committed, u.Growing setup.maxNesting (processed ++ [request]) committed []) →
      Between setup.maxNesting (processed ++ request :: waiting) waiting u := by
    rintro u ⟨later, hu⟩
    exact ⟨processed ++ [request], later, by simp, hu⟩
  exact hprocess.mono (fun _ u hu => hbetween u hu) fun _ u hu => (hbetween u hu).isForest

/-- At any end of a discovery, the table is a forest in preorder with its roots in the order of the queue, less deep
than candidates may be nested. -/
theorem discover_forest (m : Model) (roots : List Request) (reporter : Reporter) :
    (discover setup).Ends (.start m roots reporter) (fun _ s => s.table.IsForest setup.maxNesting roots)
      fun _ s => s.table.IsForest setup.maxNesting roots := by
  have hdrain := drain_grows setup roots roots ⟨[], [], rfl, .start m roots reporter⟩
  exact Ends.discover (hdrain.mono (fun _ _ h => h.isForest) fun _ _ h => h) fun _ _ h => h

end Analysis

end Independence
