import Mathlib.Data.List.Infix
import Independence.Proofs.Analysis.Ancestry
import Independence.Proofs.Analysis.Processing
/-!
# What discovery only adds to

Discovery adds to the requests processed and to the records and takes nothing away, however it ends. Whoever is named
in all this as a parent, an owner or a candidate in progress was accepted at some time.
-/

namespace Independence

variable {s t u : Session Model} {f g : CallableId} {r : Record} {request : Request} {vs ws : List Visit}

/-! ## Accepted requests -/

theorem Accepted.mono (h : Accepted vs f) (hsub : vs ⊆ ws) : Accepted ws f := by
  obtain ⟨v, hv, hf⟩ := h
  exact ⟨v, hsub hv, hf⟩

theorem accepted_append : Accepted (vs ++ ws) f ↔ Accepted vs f ∨ Accepted ws f := by
  simp only [Accepted, List.mem_append, or_and_right, exists_or]

/-! ## Only additions -/

/-- Requests processed and records were only added, the records at the end. -/
structure Session.Extends (s t : Session Model) : Prop where
  visits : s.visits <:+ t.visits
  records : s.table.records <+: t.table.records

instance : IsPreorder (Session Model) Session.Extends where
  refl _ := ⟨List.suffix_rfl, List.prefix_rfl⟩
  trans _ _ _ h h' := ⟨h.visits.trans h'.visits, h.records.trans h'.records⟩

theorem Session.Extends.accepted (h : s.Extends t) (hf : Accepted s.visits f) : Accepted t.visits f :=
  hf.mono h.visits.subset

/-- A record that is added for the candidate that was entered is an addition. -/
theorem Session.Gains.adds (h : ((s.accept f request).enter f).Gains ⟨f, request⟩ r t) : (s.accept f request).Extends t where
  visits := h.visits ▸ List.suffix_rfl
  records := Table.records_insert? h.table ▸ List.prefix_append _ _

/-- A capture that fails adds nothing. -/
theorem Session.FailsAt.adds {x : Failure} (h : ((s.accept f request).enter f).FailsAt f x t) :
    (s.accept f request).Extends t where
  visits := h.kept.visits ▸ List.suffix_rfl
  records := h.kept.table ▸ List.prefix_rfl

/-- Whoever is named was accepted. -/
structure Session.Accounted (s : Session Model) : Prop where
  owners : ∀ r ∈ s.table.records, Accepted s.visits r.owner
  parents : ∀ r ∈ s.table.records, ∀ p, r.parent = some p → Accepted s.visits p
  enclosing : ∀ v ∈ s.visits, ∀ g ∈ v.enclosing, Accepted s.visits g
  candidates : ∀ g ∈ s.traversal.candidates, Accepted s.visits g

theorem Traversal.mem_candidates_of_parent? {t : Traversal} (h : t.parent? = some g) : g ∈ t.candidates := by
  obtain ⟨frame, hframe, rfl⟩ := Option.map_eq_some_iff.1 h
  exact List.mem_map_of_mem (List.mem_of_find?_eq_some hframe)

namespace Session.Accounted

theorem start (m : Model) (roots : List Request) (reporter : Reporter) :
    (Session.start m roots reporter).Accounted :=
  ⟨fun _ h => (by cases h), fun _ h => (by cases h), fun _ h => (by cases h), fun _ h => (by cases h)⟩

/-- To note a request that was made inside the candidates in progress keeps the account. -/
theorem noted (h : s.Accounted) (new : List Visit) (hnew : ∀ v ∈ new, v.enclosing = s.traversal.candidates)
    (hvisits : t.visits = new ++ s.visits) (htable : t.table = s.table) (hframes : t.traversal = s.traversal) :
    t.Accounted := by
  have hsub : s.visits ⊆ t.visits := hvisits ▸ List.subset_append_right new s.visits
  refine ⟨fun r hr => ?_, fun r hr p hp => ?_, fun v hv g hg => ?_, fun g hg => ?_⟩
  · exact (h.owners r (htable ▸ hr)).mono hsub
  · exact (h.parents r (htable ▸ hr) p hp).mono hsub
  · rw [hvisits] at hv
    rcases List.mem_append.1 hv with hv | hv
    · exact (h.candidates g (hnew v hv ▸ hg)).mono hsub
    · exact (h.enclosing v hv g hg).mono hsub
  · exact (h.candidates g (hframes ▸ hg)).mono hsub

theorem accept (h : s.Accounted) (f : CallableId) (request : Request) :
    (s.accept f request).Accounted ∧ Accepted (s.accept f request).visits f :=
  ⟨h.noted [⟨f, request.location, s.traversal.candidates, .accepted⟩] (by simp) rfl rfl rfl,
    ⟨_, List.mem_cons_self, rfl, rfl⟩⟩

theorem enter (h : s.Accounted) (hf : Accepted s.visits f) : (s.enter f).Accounted where
  owners := h.owners
  parents := h.parents
  enclosing := h.enclosing
  candidates g hg := by
    rcases List.mem_cons.1 (show g ∈ f :: s.traversal.candidates from hg) with rfl | hg
    · exact hf
    · exact h.candidates g hg

theorem gains {c : Candidate} (h : s.Accounted) (hc : Accepted s.visits c.callable) (hg : s.Gains c r t) :
    t.Accounted := by
  refine ⟨fun q hq => ?_, fun q hq p hp => ?_, ?_, ?_⟩
  · rw [hg.visits]
    rcases (Table.mem_records_insert? hg.table).1 hq with hq | rfl
    · exact h.owners q hq
    · rw [Record.owner, hg.candidate]
      exact hc
  · rw [hg.visits]
    rcases (Table.mem_records_insert? hg.table).1 hq with hq | rfl
    · exact h.parents q hq p hp
    · rw [hg.parent] at hp
      exact h.candidates p (Traversal.mem_candidates_of_parent? hp)
  · rw [hg.visits]
    exact h.enclosing
  · rw [hg.visits, hg.traversal]
    exact h.candidates

/-- Whoever the frames name, they may be other frames of the same candidates. -/
theorem reframed (h : s.Accounted) (hvisits : t.visits = s.visits) (htable : t.table = s.table)
    (hframes : t.traversal.candidates ⊆ s.traversal.candidates) : t.Accounted where
  owners := by rw [hvisits, htable]; exact h.owners
  parents := by rw [hvisits, htable]; exact h.parents
  enclosing := by rw [hvisits]; exact h.enclosing
  candidates g hg := hvisits ▸ h.candidates g (hframes hg)

/-- Where nobody was accepted nothing was recorded. -/
theorem records_eq_nil (h : s.Accounted) (hempty : s.visits = []) : s.table.records = [] := by
  refine List.eq_nil_iff_forall_not_mem.2 fun r hr => ?_
  obtain ⟨v, hv, -⟩ := h.owners r hr
  rw [hempty] at hv
  cases hv

/-- A record added for the candidate that was entered keeps the account, and so does the commit of its effects. -/
theorem captured (h : s.Accounted) (hg : ((s.accept f request).enter f).Gains ⟨f, request⟩ r t) :
    t.Accounted ∧ (t.commit r.effects).Accounted := by
  obtain ⟨haccept, hf⟩ := h.accept f request
  have ht : t.Accounted := (haccept.enter hf).gains (c := ⟨f, request⟩) hf hg
  refine ⟨ht, ht.reframed rfl rfl ?_⟩
  rw [Traversal.candidates, hg.traversal_commit, hg.traversal]
  exact List.Subset.refl _

end Session.Accounted

namespace Analysis

variable (setup : Setup)

/-- Processing a request only adds, and whatever becomes of the request, the callable that it stands for is accepted
then. -/
theorem process_extends (levels : Nat) (request : Request) (s : Session Model) :
    (process setup levels request).Ends s
      (fun _ t => s.Extends t ∧ ∀ f, Evaluator.candidate? s.evaluator request.target = some f → Accepted t.visits f)
      fun _ t => s.Extends t ∧ ∀ f, Evaluator.candidate? s.evaluator request.target = some f → Accepted t.visits f := by
  induction levels using Nat.strongRecOn generalizing request s with
  | ind levels ih =>
    have hadds : ∀ noted reporter, s.Extends { s with visits := noted ++ s.visits, reporter } := fun noted _ =>
      ⟨List.suffix_append noted s.visits, List.prefix_rfl⟩
    -- Behind the acceptance of `f`, whatever only adds keeps it.
    have hadded : ∀ {f : CallableId} {t u : Session Model}, Evaluator.candidate? s.evaluator request.target = some f →
        (s.accept f request).Extends t → u.visits = t.visits → u.table = t.table →
        s.Extends u ∧ ∀ g, Evaluator.candidate? s.evaluator request.target = some g → Accepted u.visits g := by
      intro f t u hf ht hvisits htable
      refine ⟨⟨?_, ?_⟩, fun g hg => ?_⟩
      · rw [hvisits]
        exact (List.suffix_cons _ _).trans ht.visits
      · rw [htable]
        exact ht.records
      · rw [hf] at hg
        cases hg
        rw [hvisits]
        exact ht.accepted ⟨_, List.mem_cons_self, rfl, rfl⟩
    refine Ends.process (fun noted reporter hn => ⟨hadds noted reporter, hn.accepted⟩)
      (fun x noted reporter hn => ⟨hadds noted reporter, hn.accepted⟩)
      (fun f x t hf h => hadded hf.candidate h.adds rfl rfl)
      (fun f r t hf _ h => hadded hf.candidate h.adds rfl rfl) ?_
    rintro f r t rest requests ⟨hf, -⟩ rfl h
    have hnested : (requests.forM (process setup rest)).Ends (t.commit r.effects)
        (fun _ => (t.commit r.effects).Extends) fun _ => (t.commit r.effects).Extends :=
      Follows.forM (T := Session.Extends) (fun request u => (ih rest (Nat.lt_succ_self _) request u).mono
        (fun _ _ hu => hu.1) fun _ _ hu => hu.1) requests _
    have hall : ∀ u, (t.commit r.effects).Extends u → (s.accept f request).Extends u := fun u hu =>
      trans_of Session.Extends h.adds ⟨hu.visits, hu.records⟩
    exact hnested.mono (fun _ u hu => hadded hf (hall u hu) rfl rfl) fun _ u hu => hadded hf (hall u hu) rfl rfl

theorem process_follows (levels : Nat) (request : Request) : Follows Session.Extends (process setup levels request) :=
  fun s => (process_extends setup levels request s).mono (fun _ _ h => h.1) fun _ _ h => h.1

theorem drain_follows (requests : List Request) : Follows Session.Extends (drain setup requests) := by
  intro s
  refine (Ends.drain (I := fun _ t => s.Extends t) (E := fun _ t => s.Extends t) (fun request queue t ht => ?_)
    (refl_of Session.Extends s)).mono (fun _ _ h => h) fun _ _ h => h
  have hqueue : s.Extends { t with queue } := ⟨ht.visits, ht.records⟩
  exact (process_follows setup _ request _).mono (fun _ _ hu => trans_of _ hqueue hu) fun _ _ hu => trans_of _ hqueue hu

/-- Processing a request keeps the account, and it leaves the frames as they were. -/
theorem process_accounts (levels : Nat) (request : Request) (hs : s.Accounted) :
    (process setup levels request).Ends s
      (fun _ t => t.Accounted ∧ t.traversal.frames = s.traversal.frames) fun _ _ => True := by
  induction levels using Nat.strongRecOn generalizing request s with
  | ind levels ih =>
    refine Ends.process (fun noted reporter hn => ⟨hs.noted noted hn.enclosing rfl rfl rfl, rfl⟩)
      (fun _ _ _ _ => trivial) (fun _ _ _ _ _ => trivial) (fun f r t _ _ h => ?_) ?_
    · refine ⟨(hs.captured h).1.reframed rfl rfl ?_, congrArg Traversal.frames h.traversal_leave⟩
      rw [h.traversal_leave, h.traversal]
      exact List.subset_cons_self _ _
    · rintro f r t rest requests - rfl h
      have hnested : (requests.forM (process setup rest)).Ends (t.commit r.effects)
          (fun _ u => u.Accounted ∧ u.traversal.frames = (t.commit r.effects).traversal.frames) fun _ _ => True := by
        refine Ends.forM (I := fun u => u.Accounted ∧ u.traversal.frames = (t.commit r.effects).traversal.frames) ?_
          ⟨(hs.captured h).2, rfl⟩
        rintro request - u ⟨hu, huf⟩
        exact (ih rest (Nat.lt_succ_self _) request hu).mono (fun _ v hv => ⟨hv.1, hv.2.trans huf⟩) fun _ _ h => h
      refine hnested.mono ?_ fun _ _ h => h
      rintro _ u ⟨hu, huf⟩
      rw [h.traversal_commit] at huf
      have hleft := Session.traversal_unwind huf t r.effects
      refine ⟨hu.reframed rfl rfl ?_, by rw [hleft]⟩
      rw [Traversal.candidates, Traversal.candidates, hleft, huf]
      exact List.subset_cons_self _ _

end Analysis

end Independence
