import Mathlib.Data.List.Nodup
import Independence.Proofs.Analysis.Levels
import Independence.Proofs.Analysis.Soundness
/-!
# How deep candidates are nested

A callable is accepted once, so the candidates in progress are all different. All but the innermost one have a record, and
what has a record is a function of the program. So it is the program that bounds how deep candidates are nested, whatever
they register, and a limit beyond the number of its functions is never reached.
-/

namespace Independence

variable {m : Model} {s t u v : Session Model} {f : CallableId} {r : Record} {request : Request} {x : Failure}
  {setup : Setup} {levels : Nat}

/-! ## Functions of the program -/

/-- There are no more different callables with a definition than functions. -/
theorem Model.length_le_functions {fs : List CallableId} (hn : fs.Nodup) (hd : ∀ f ∈ fs, (m.function? f).isSome) :
    fs.length ≤ m.functions.length := by
  have hsub : fs.map CallableId.index ⊆ List.range m.functions.length := by
    intro i hi
    obtain ⟨f, hf, rfl⟩ := List.mem_map.1 hi
    obtain ⟨g, hg⟩ := Option.isSome_iff_exists.1 (hd f hf)
    exact List.mem_range.2 (List.getElem?_eq_some_iff.1 hg).1
  have hnodup : (fs.map CallableId.index).Nodup := by
    refine hn.map fun f g h => ?_
    cases f
    cases g
    exact congrArg CallableId.mk h
  simpa using (hnodup.subperm hsub).length_le

/-- Only what has a definition can be evaluated. -/
theorem Model.function?_isSome_of_traceOf {call : Call} {e : Effects} {p : List Event × Model}
    (h : m.traceOf call = .ok e p) : (m.function? call.callee).isSome := by
  cases hf : m.function? call.callee with
  | some g => rfl
  | none =>
    simp only [traceOf, Model.evaluate, invoke, hf] at h
    cases h

/-! ## Candidates in progress -/

namespace Session

/-- The candidates in progress are different, all but the innermost one have a record, and all records are of functions of
the program. -/
structure Stacked (m : Model) (s : Session Model) : Prop where
  distinct : s.traversal.candidates.Nodup
  recorded : ∀ f ∈ s.traversal.candidates.tail, f ∈ s.table.owners
  defined : ∀ f ∈ s.table.owners, (m.function? f).isSome

theorem Stacked.size_le (h : s.Stacked m) : s.table.size ≤ m.functions.length := by
  have hle := Model.length_le_functions s.table.nodup_owners h.defined
  rwa [List.length_map] at hle

theorem Stacked.depth_le (h : s.Stacked m) : s.traversal.depth ≤ m.functions.length + 1 := by
  have hle := Model.length_le_functions (h.distinct.sublist (List.tail_sublist _))
    fun f hf => h.defined f (h.recorded f hf)
  rw [List.length_tail, Traversal.candidates, List.length_map] at hle
  unfold Traversal.depth
  omega

/-- Between two requests the innermost candidate has a record as well, and whoever has one was accepted. -/
structure Grounded (m : Model) (s : Session Model) : Prop where
  functions : s.evaluator.functions = m.functions
  distinct : s.traversal.candidates.Nodup
  recorded : ∀ f ∈ s.traversal.candidates, f ∈ s.table.owners
  defined : ∀ f ∈ s.table.owners, (m.function? f).isSome
  accepted : ∀ f ∈ s.table.owners, Accepted s.visits f

namespace Grounded

theorem start (m : Model) (roots : List Request) (reporter : Reporter) (placeholders : Placeholders) :
    Grounded m { Session.start m roots reporter with placeholders } :=
  ⟨rfl, List.nodup_nil, nofun, nofun, nofun⟩

theorem stacked (h : s.Grounded m) : s.Stacked m :=
  ⟨h.distinct, fun f hf => h.recorded f (List.mem_of_mem_tail hf), h.defined⟩

theorem depth_le (h : s.Grounded m) : s.traversal.depth ≤ m.functions.length := by
  have hle := Model.length_le_functions h.distinct fun f hf => h.defined f (h.recorded f hf)
  rwa [Traversal.candidates, List.length_map] at hle

/-- Nothing is added but visits. -/
theorem noted (h : s.Grounded m) (hv : s.visits ⊆ t.visits) (ht : t.table = s.table)
    (hc : t.traversal.candidates = s.traversal.candidates) (hf : t.evaluator.functions = s.evaluator.functions) :
    t.Grounded m where
  functions := hf.trans h.functions
  distinct := hc ▸ h.distinct
  recorded := by
    rw [hc, ht]
    exact h.recorded
  defined := by
    rw [ht]
    exact h.defined
  accepted f hf := by
    rw [ht] at hf
    obtain ⟨v, hmem, hacc⟩ := h.accepted f hf
    exact ⟨v, hv hmem, hacc⟩

/-- The candidate that is entered now is not in progress yet. -/
theorem nodup_enter (h : s.Grounded m) (hf : s.Admits request f) : (f :: s.traversal.candidates).Nodup :=
  List.nodup_cons.2 ⟨fun hmem => hf.unseen (h.accepted f (h.recorded f hmem)), h.distinct⟩

theorem enter (h : s.Grounded m) (hf : s.Admits request f) : ((s.accept f request).enter f).Stacked m :=
  ⟨h.nodup_enter hf, h.recorded, h.defined⟩

/-- A capture that fails leaves the candidate without a record. -/
theorem fails (h : s.Grounded m) (hf : s.Admits request f) (ht : ((s.accept f request).enter f).FailsAt f x t) :
    t.Stacked m := by
  have hcandidates : t.traversal.candidates = f :: s.traversal.candidates :=
    congrArg (List.map Frame.candidate) ht.kept.frames
  refine ⟨hcandidates ▸ h.nodup_enter hf, ?_, ?_⟩
  · rw [hcandidates, ht.kept.table]
    exact h.recorded
  · rw [ht.kept.table]
    exact h.defined

theorem left (h : s.Grounded m) (ht : ((s.accept f request).enter f).FailsAt f x t) : t.leave.Grounded m := by
  have htraversal := ht.kept.traversal_leave
  refine h.noted (t := t.leave) ?_ ht.kept.table ?_ ht.kept.evaluator.functions
  · have hvisits : t.leave.visits = _ :: s.visits := ht.kept.visits
    rw [hvisits]
    exact List.subset_cons_self _ _
  · rw [htraversal]
    rfl

/-- A capture that succeeds gives the candidate its record. -/
theorem gains (h : s.Grounded m) (hf : s.Admits request f)
    (ht : ((s.accept f request).enter f).Gains ⟨f, request⟩ r t) : t.Grounded m := by
  have howner : r.owner = f := congrArg Candidate.callable ht.candidate
  have hcandidates : t.traversal.candidates = f :: s.traversal.candidates := by
    rw [ht.traversal]
    rfl
  have howners : ∀ g, g ∈ t.table.owners ↔ g ∈ s.table.owners ∨ g = f := by
    intro g
    have hrecords : t.table.records = s.table.records ++ [r] := Table.records_insert? ht.table
    rw [Table.owners, hrecords, List.map_append, List.mem_append, List.map_singleton, howner, List.mem_singleton,
      Table.owners]
  have hfunctions : t.evaluator.functions = s.evaluator.functions := ht.evaluator.functions
  obtain ⟨call, es, hcallee, -, htrace⟩ := ht.traced
  have hdefined : (m.function? f).isSome := by
    have hsome := Model.function?_isSome_of_traceOf htrace
    have hs : ((s.accept f request).enter f).evaluator.functions = m.functions := h.functions
    rwa [hcallee, Model.function?, hs] at hsome
  refine ⟨hfunctions.trans h.functions, hcandidates ▸ h.nodup_enter hf, ?_, ?_, ?_⟩
  · intro g hg
    rw [hcandidates] at hg
    rcases List.mem_cons.1 hg with rfl | hg
    · exact (howners _).2 (.inr rfl)
    · exact (howners g).2 (.inl (h.recorded g hg))
  · intro g hg
    rcases (howners g).1 hg with hg | rfl
    · exact h.defined g hg
    · exact hdefined
  · intro g hg
    have hvisits : t.visits = (s.accept f request).visits := ht.visits
    rw [hvisits]
    rcases (howners g).1 hg with hg | rfl
    · obtain ⟨v, hv, hacc⟩ := h.accepted g hg
      exact ⟨v, List.mem_cons_of_mem _ hv, hacc⟩
    · exact ⟨_, List.mem_cons_self, rfl, rfl⟩

/-- When a candidate is left, those below it are in progress as before. -/
theorem reframed (h : t.Grounded m) (hs : s.Grounded m) (hv : u.visits = t.visits) (ht : u.table = t.table)
    (hc : u.traversal.candidates = s.traversal.candidates) (hsub : s.traversal.candidates ⊆ t.traversal.candidates)
    (hf : u.evaluator.functions = t.evaluator.functions) : u.Grounded m where
  functions := hf.trans h.functions
  distinct := hc ▸ hs.distinct
  recorded g hg := by
    rw [ht]
    exact h.recorded g (hsub (hc ▸ hg))
  defined := by
    rw [ht]
    exact h.defined
  accepted := by
    rw [ht, hv]
    exact h.accepted

end Grounded

/-- In `t` the frames are open that were so in `s`, and again it is between two requests. -/
structure Returns (m : Model) (s t : Session Model) : Prop where
  grounded : t.Grounded m
  frames : t.traversal.frames = s.traversal.frames

theorem Returns.trans (h : Returns m s t) (h' : Returns m t u) : Returns m s u :=
  ⟨h'.grounded, h'.frames.trans h.frames⟩

theorem Returns.depth (h : Returns m s t) : t.traversal.depth = s.traversal.depth := congrArg List.length h.frames

theorem Grounded.queue (h : s.Grounded m) (queue : List Request) : Grounded m { s with queue } :=
  h.noted (List.Subset.refl _) rfl rfl rfl

/-- When a candidate registers nothing its frame is left at once. -/
theorem Grounded.leave (hs : s.Grounded m) (hf : s.Admits request f)
    (h : ((s.accept f request).enter f).Gains ⟨f, request⟩ r t) : Returns m s t.leave := by
  have hbelow : s.traversal.candidates ⊆ t.traversal.candidates := by
    rw [h.traversal]
    exact List.subset_cons_self f _
  refine ⟨(hs.gains hf h).reframed hs rfl rfl ?_ hbelow rfl, congrArg Traversal.frames h.traversal_leave⟩
  rw [h.traversal_leave]

/-- Otherwise it is left when what the candidate registered has been processed. -/
theorem Grounded.unwind (hs : s.Grounded m) (h : ((s.accept f request).enter f).Gains ⟨f, request⟩ r t)
    (hu : Returns m (t.commit r.effects) u) : Returns m s (t.unwind r.effects u) := by
  have hframes := hu.frames
  rw [h.traversal_commit] at hframes
  have hleft := traversal_unwind hframes t r.effects
  have hbelow : s.traversal.candidates ⊆ u.traversal.candidates := by
    rw [Traversal.candidates, Traversal.candidates, hframes]
    exact List.subset_cons_self f _
  refine ⟨hu.grounded.reframed hs rfl rfl ?_ hbelow rfl, by rw [hleft]⟩
  rw [Traversal.candidates, hleft, Traversal.candidates]

end Session

namespace Analysis

/-- What brings each request back, brings a list of them back. -/
theorem Ends.forM_returns {E : Failure → Session Model → Prop} {step : Request → Analysis Model PUnit}
    {requests : List Request} (h : ∀ request u, s.Returns m u → (step request).Ends u (fun _ => u.Returns m) E)
    (hs : s.Grounded m) : (requests.forM step).Ends s (fun _ => s.Returns m) E :=
  Ends.forM (I := s.Returns m) (fun request _ u hu => (h request u hu).mono (fun _ _ => hu.trans) fun _ _ hx => hx)
    ⟨hs, rfl⟩

/-- The effects of a candidate that was captured are committed. -/
theorem grounded_commit (hs : s.Grounded m) (hf : s.Admits request f)
    (h : ((s.accept f request).enter f).Gains ⟨f, request⟩ r t) : (t.commit r.effects).Grounded m := by
  refine (hs.gains hf h).noted (List.Subset.refl _) rfl ?_ rfl
  rw [Traversal.candidates, h.traversal_commit, h.traversal]
  rfl

/-- However a request is processed, it comes back to the same frames. -/
theorem process_returns (setup : Setup) (levels : Nat) (request : Request) (hs : s.Grounded m) :
    (process setup levels request).Ends s (fun _ => s.Returns m) fun _ => s.Returns m := by
  induction levels using Nat.strongRecOn generalizing request s with
  | ind levels ih =>
    have haside : ∀ noted reporter, s.Returns m { s with visits := noted ++ s.visits, reporter } := fun noted _ =>
      ⟨hs.noted (List.subset_append_right noted s.visits) rfl rfl rfl, rfl⟩
    refine Ends.process (fun noted reporter _ => haside noted reporter) (fun _ noted reporter _ => haside noted reporter)
      (fun _ _ _ _ h => ⟨hs.left h, by rw [h.kept.traversal_leave]⟩) (fun _ _ _ hf _ h => hs.leave hf h) ?_
    rintro f r t rest requests hf rfl h
    have hnested : (requests.forM (process setup rest)).Ends (t.commit r.effects)
        (fun _ => (t.commit r.effects).Returns m) fun _ => (t.commit r.effects).Returns m :=
      Ends.forM_returns (fun next u hu => (ih rest (Nat.lt_succ_self _) next hu.grounded).mono (fun _ _ hv => hv)
        fun _ _ => hu.trans) (grounded_commit hs hf h)
    exact hnested.mono (fun _ _ => hs.unwind h) fun _ _ => hs.unwind h

theorem forM_process_returns (setup : Setup) (levels : Nat) (requests : List Request) (hs : s.Grounded m) :
    (requests.forM (process setup levels)).Ends s (fun _ => s.Returns m) fun _ => s.Returns m :=
  Ends.forM_returns (fun request _ hu => (process_returns setup levels request hu.grounded).mono (fun _ _ hv => hv)
    fun _ _ => hu.trans) hs

/-! ## While requests are processed -/

/-- The sessions that occur while a request is processed from `s` with that many levels left. -/
inductive During (setup : Setup) : Nat → Request → Session Model → Session Model → Prop
  | begun {levels : Nat} {request : Request} {s : Session Model} : During setup levels request s s
  /-- The frame of the candidate is open, and nothing is captured yet. -/
  | entered {levels : Nat} {request : Request} {s : Session Model} {f : CallableId} (hf : s.Admits request f) :
    During setup (levels + 1) request s ((s.accept f request).enter f)
  /-- The capture is over, whether there is a record now or it failed. -/
  | captured {levels : Nat} {request : Request} {s : Session Model} {f : CallableId} (hf : s.Admits request f) :
    During setup (levels + 1) request s (finalState (captureNew setup ⟨f, request⟩ ((s.accept f request).enter f)))
  /-- Some of what the candidate registered was processed under its commit, and the last of it may have failed. -/
  | processed {levels : Nat} {request : Request} {s t : Session Model} {f : CallableId} {r : Record}
    {requests before : List Request} (hf : s.Admits request f)
    (hc : captureNew setup ⟨f, request⟩ ((s.accept f request).enter f) = .ok (r, requests) t)
    (hne : requests ≠ []) (hbefore : before <+: requests) :
    During setup (levels + 1) request s (finalState (before.forM (process setup levels) (t.commit r.effects)))
  /-- The next of it is being processed. -/
  | nested {levels : Nat} {request next : Request} {s t u v : Session Model} {f : CallableId} {r : Record}
    {before after : List Request} (hf : s.Admits request f)
    (hc : captureNew setup ⟨f, request⟩ ((s.accept f request).enter f) = .ok (r, before ++ next :: after) t)
    (hbefore : before.forM (process setup levels) (t.commit r.effects) = .ok () u)
    (hnext : During setup levels next u v) : During setup (levels + 1) request s v
  | ended {levels : Nat} {request : Request} {s : Session Model} :
    During setup levels request s (finalState (process setup levels request s))

/-- The sessions that occur while the queue is processed. -/
inductive DuringDrain (setup : Setup) : List Request → Session Model → Session Model → Prop
  | begun {queue : List Request} {s : Session Model} : DuringDrain setup queue s s
  | now {request : Request} {queue : List Request} {s t : Session Model}
    (h : During setup (setup.maxNesting - s.traversal.depth) request { s with queue } t) :
    DuringDrain setup (request :: queue) s t
  | later {request : Request} {queue : List Request} {s t u : Session Model}
    (hp : process setup (setup.maxNesting - s.traversal.depth) request { s with queue } = .ok () t)
    (h : DuringDrain setup queue t u) : DuringDrain setup (request :: queue) s u

/-- The session in which the queue has been processed, or in which that failed, is one of them. -/
theorem DuringDrain.ended (setup : Setup) (queue : List Request) (s : Session Model) :
    DuringDrain setup queue s (finalState (drain setup queue s)) := by
  induction queue generalizing s with
  | nil => exact .begun
  | cons request queue ih =>
    have hstep : drain setup (request :: queue) s =
        (process setup (setup.maxNesting - s.traversal.depth) request >>= fun _ => drain setup queue)
          { s with queue } := rfl
    rw [hstep]
    simp only [Bind.bind, EStateM.bind]
    cases hp : process setup (setup.maxNesting - s.traversal.depth) request { s with queue } with
    | ok _ t => exact .later hp (ih t)
    | error x t =>
      have hended : During setup (setup.maxNesting - s.traversal.depth) request { s with queue } _ := .ended
      rw [hp] at hended
      exact .now hended

/-- However deep the candidates are nested, they are different and all but the innermost one have a record. -/
theorem During.stacked (h : During setup levels request s t) (hs : s.Grounded m) : t.Stacked m := by
  induction h with
  | begun => exact hs.stacked
  | entered hf => exact hs.enter hf
  | @captured _ request s f hf =>
    exact ((captureNew_ends setup ⟨f, request⟩ _).mono (fun _ _ h => (hs.gains hf h.1).stacked)
      fun _ _ h => hs.fails hf h).final
  | @processed levels request s t f r requests before hf hc _ _ =>
    have hgains := ((captureNew_ends setup ⟨f, request⟩ _).of_ok hc).1
    exact (forM_process_returns setup levels before (grounded_commit hs hf hgains)).final.grounded.stacked
  | @nested levels request next s t u v f r before after hf hc hbefore _ ih =>
    have hgains := ((captureNew_ends setup ⟨f, request⟩ _).of_ok hc).1
    exact ih ((forM_process_returns setup levels before (grounded_commit hs hf hgains)).of_ok hbefore).grounded
  | @ended levels request s => exact (process_returns setup levels request hs).final.grounded.stacked

theorem DuringDrain.stacked {queue : List Request} (h : DuringDrain setup queue s t) (hs : s.Grounded m) :
    t.Stacked m := by
  induction h with
  | begun => exact hs.stacked
  | now h => exact h.stacked (hs.queue _)
  | later hp _ ih => exact ih ((process_returns setup _ _ (hs.queue _)).of_ok hp).grounded

/-! ## The limit -/

theorem Failure.ne_depthExceeded_of_ofEvaluation (h : x.ofEvaluation = true) (limit : Nat) : x ≠ .depthExceeded limit := by
  rintro rfl
  cases h

/-- With more levels left than the program has functions that are not in progress, they do not run out. -/
theorem process_shallow (setup : Setup) (request : Request) (hs : s.Grounded m)
    (hlevels : m.functions.length < s.traversal.depth + levels) :
    (process setup levels request).Ends s (fun _ _ => True) fun x _ => ∀ limit, x ≠ .depthExceeded limit := by
  induction levels using Nat.strongRecOn generalizing request s with
  | ind levels ih =>
    refine Ends.process (fun _ _ _ => trivial) ?refused ?failed (fun _ _ _ _ _ _ => trivial) ?nested
    case refused =>
      rintro x noted reporter ⟨-, -, ⟨hother, -⟩ | ⟨rfl, -⟩⟩
      · exact hother
      · exact absurd hs.depth_le (Nat.not_le.2 hlevels)
    case failed =>
      intro f x t _ h
      rcases h.cause with h | ⟨hx, -⟩
      · exact h.shallow
      · exact Failure.ne_depthExceeded_of_ofEvaluation hx
    case nested =>
      rintro f r t rest requests hf rfl h
      have hdeeper : (t.commit r.effects).traversal.depth = s.traversal.depth + 1 := by
        rw [h.traversal_commit]
        rfl
      have hnested : (requests.forM (process setup rest)).Ends (t.commit r.effects)
          (fun _ => (t.commit r.effects).Returns m) fun x _ => ∀ limit, x ≠ .depthExceeded limit := by
        refine Ends.forM_returns (fun next u hu => ?_) (grounded_commit hs hf h)
        have hdepth := hu.depth
        have hshallow := ih rest (Nat.lt_succ_self _) next hu.grounded (by omega)
        exact (hshallow.and (process_returns setup rest next hu.grounded)).mono (fun _ _ hv => hv.2) fun _ _ hv => hv.1
      exact hnested.mono (fun _ _ _ => trivial) fun _ _ hx => hx

/-- A limit beyond the number of functions is not reached. -/
theorem discover_shallow (hs : s.Grounded m) (hopen : s.traversal.depth = 0)
    (hlimit : m.functions.length < setup.maxNesting) :
    (discover setup).Ends s (fun _ _ => True) fun x _ => ∀ limit, x ≠ .depthExceeded limit := by
  refine Ends.discover (Ends.mono (Ends.drain (I := fun _ => s.Returns m) ?_ ⟨hs, rfl⟩) (fun _ _ _ => trivial)
    fun _ _ hx => hx) fun _ _ _ _ => nofun
  intro request queue t ht
  have hdepth := ht.depth
  have hlevels : m.functions.length < t.traversal.depth + (setup.maxNesting - t.traversal.depth) := by omega
  have hqueue : s.Returns m { t with queue } := ⟨ht.grounded.queue queue, ht.frames⟩
  have hshallow := process_shallow setup request hqueue.grounded hlevels
  exact (hshallow.and (process_returns setup _ request hqueue.grounded)).mono (fun _ _ hu => hqueue.trans hu.2)
    fun _ _ hu => hu.1

/-- Discovery ends with the table that it has when the queue has been processed, or when that failed. -/
theorem discover_table (setup : Setup) (s : Session Model) :
    (discover setup).Ends s (fun _ t => t.table = (finalState (drain setup s.queue s)).table)
      fun _ t => t.table = (finalState (drain setup s.queue s)).table := by
  refine Ends.discover (Q := fun _ t => t.table = (finalState (drain setup s.queue s)).table) ?_ fun _ _ h => h
  unfold Ends
  cases drain setup s.queue s <;> rfl

/-- The program bounds discovery, whatever its functions register and however deep the limit lets candidates be nested. At
any time the candidates in progress are different functions of the program that have a record, but for the innermost one.
So there are never more than one beyond the number of functions, nor more records than functions; and with a limit beyond
their number discovery does not give up, but takes the course that it takes with any other such limit. -/
theorem discovery_bounded_by_program (setup : Setup) (m : Model) (roots : List Request) (reporter : Reporter)
    (placeholders : Placeholders) :
    (∀ t, DuringDrain setup roots { Session.start m roots reporter with placeholders } t →
      t.traversal.candidates.Nodup ∧
      (∀ f ∈ t.traversal.candidates.tail, f ∈ t.table.owners ∧ (m.function? f).isSome) ∧
      t.traversal.depth ≤ m.functions.length + 1 ∧ t.table.size ≤ m.functions.length) ∧
    (discover setup).Ends { Session.start m roots reporter with placeholders }
      (fun _ t => t.table.size ≤ m.functions.length) (fun _ t => t.table.size ≤ m.functions.length) ∧
    (m.functions.length < setup.maxNesting →
      (∀ limit t, discover setup { Session.start m roots reporter with placeholders } ≠ .error (.depthExceeded limit) t) ∧
      ∀ limit, m.functions.length < limit →
        discover { setup with maxNesting := limit } { Session.start m roots reporter with placeholders } =
          discover setup { Session.start m roots reporter with placeholders }) := by
  have hs := Session.Grounded.start m roots reporter placeholders
  have hdrain : ∀ t, DuringDrain setup roots { Session.start m roots reporter with placeholders } t → t.Stacked m :=
    fun _ h => h.stacked hs
  have hsize := (hdrain _ (.ended setup roots _)).size_le
  have hnever : ∀ setup : Setup, m.functions.length < setup.maxNesting → ∀ limit t,
      discover setup { Session.start m roots reporter with placeholders } ≠ .error (.depthExceeded limit) t := by
    intro setup hlimit limit t h
    have hshallow := discover_shallow hs rfl hlimit
    rw [Ends, h] at hshallow
    exact hshallow limit rfl
  refine ⟨fun t h => ?_, ?_, fun hlimit => ⟨hnever setup hlimit, fun limit hlarge => ?_⟩⟩
  · have ht := hdrain t h
    exact ⟨ht.distinct, fun f hf => ⟨ht.recorded f hf, ht.defined f (ht.recorded f hf)⟩, ht.depth_le, ht.size_le⟩
  · exact (discover_table setup _).mono (fun _ _ h => h ▸ hsize) fun _ _ h => h ▸ hsize
  · exact Refines.discover_eq setup.names (hnever setup hlimit) (hnever { setup with maxNesting := limit } hlarge)

/-- Two functions that register each other and themselves. The second one registers a callable without a definition as
well. -/
def entangled : Model :=
  let function (name : String) (targets : List Nat) : Function :=
    ⟨⟨some name, [], ⟨"sample", .dummy⟩⟩,
      targets.foldr (fun i => .op (.register (.function ⟨i⟩) none (.ofLine (i + 1)))) .done⟩
  { Model.new "sample" with functions := [function "first" [0, 1], function "second" [0, 1, 2]] }

/-- The callable without a definition is the third one in progress, so only a limit of three is beyond reach. -/
theorem discovery_bounded_by_program_entangled :
    let s := Session.start entangled [.ofCallable ⟨0⟩] (.new ⟨false, true⟩ none [])
    (∃ t, discover ⟨.empty, 2⟩ s = .error (.depthExceeded 2) t) ∧
    (∀ limit t, discover ⟨.empty, 3⟩ s ≠ .error (.depthExceeded limit) t) ∧
    ∀ limit, 2 < limit → discover ⟨.empty, limit⟩ s = discover ⟨.empty, 3⟩ s := by
  intro s
  have hreached : (match discover ⟨.empty, 2⟩ s with
      | .error (.depthExceeded 2) _ => true
      | _ => false) = true := by decide +kernel
  refine ⟨?_, (discovery_bounded_by_program ⟨.empty, 3⟩ entangled [.ofCallable ⟨0⟩] _ .none).2.2 (by decide)⟩
  split at hreached
  · next t ht => exact ⟨t, ht⟩
  · cases hreached

end Analysis

end Independence
