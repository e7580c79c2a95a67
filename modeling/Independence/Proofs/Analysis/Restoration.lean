import Independence.Proofs.Analysis.Following
import Independence.Proofs.Analysis.Replay
/-!
# What an analysis leaves behind

Frames are left and commits are rolled back on every exit. So however discovery ends, also out of the middle of nested
candidates, the open frames and the heap are those from before, and no request is left pending, except where an
evaluation failed: what it registered until then stays. Verification commits and rolls back alike, and a whole run
changes nothing of the model but its counters.
-/

namespace Independence

variable {s t u : Session Model} {f : CallableId} {r : Record} {c : Candidate} {request : Request} {x : Failure}
  {left : List Request} {v : FailedEvaluation}

/-- From `s` to `t` nothing was left committed, no frame was left open, and `left` is pending besides. -/
structure Session.Leaves (s : Session Model) (left : List Request) (t : Session Model) : Prop where
  evaluator : s.evaluator.Under [] t.evaluator
  frames : t.traversal.frames = s.traversal.frames
  pending : t.traversal.pending = s.traversal.pending ++ left
  records : s.table.records ⊆ t.table.records

/-- What began in `s` stopped in `t` with the failure `x` because of the evaluation `v`. That was the last one to begin:
of the candidate accepted last, under the effects of the records `above` that enclosed it besides the frames of `s`. -/
structure Session.StopsIn (s : Session Model) (v : FailedEvaluation) (x : Failure) (t : Session Model) : Prop where
  blamed : v.Blamed x
  told : v.ToldTo t.reporter
  evaluations : t.evaluator.evaluations = v.after.evaluations
  enclosed : ∃ location above, t.visits.head? =
      some ⟨v.call.callee, location, above.map Record.owner ++ s.traversal.candidates, .accepted⟩ ∧
    (∀ r ∈ above, r ∈ t.table.records) ∧ s.evaluator.Under (Record.effectsAlong above) v.model
  leaves : s.Leaves v.registered t

/-- What began in `s` stopped in `t` with the failure `x`, with a refusal or inside an evaluation. -/
def Session.Stops (s : Session Model) (x : Failure) (t : Session Model) : Prop :=
  x.isRefusal = true ∧ s.Leaves [] t ∨ x.ofEvaluation = true ∧ ∃ v, s.StopsIn v x t

theorem Failure.ofEvaluation_of_isRefusal (h : x.isRefusal = true) : x.ofEvaluation = false := by
  cases x <;> simp_all [isRefusal, ofEvaluation]

namespace Session

/-- To note requests and reports leaves nothing behind. -/
theorem Leaves.noted (he : t.evaluator = s.evaluator) (ht : t.traversal = s.traversal) (hr : t.table = s.table) :
    s.Leaves [] t where
  evaluator := he ▸ .refl _
  frames := by rw [ht]
  pending := by rw [ht, List.append_nil]
  records := by
    rw [hr]
    exact List.Subset.refl _

theorem Leaves.trans (h : s.Leaves [] t) (h' : t.Leaves left u) : s.Leaves left u where
  evaluator := h.evaluator.later h'.evaluator
  frames := h'.frames.trans h.frames
  pending := by rw [h'.pending, h.pending, List.append_nil]
  records := fun _ hr => h'.records (h.records hr)

theorem Stops.trans (h : s.Leaves [] t) (h' : t.Stops x u) : s.Stops x u := by
  rcases h' with ⟨hx, hl⟩ | ⟨hx, v, hv⟩
  · exact .inl ⟨hx, h.trans hl⟩
  · obtain ⟨location, above, hlast, habove, hunder⟩ := hv.enclosed
    refine .inr ⟨hx, v, hv.blamed, hv.told, hv.evaluations, ⟨location, above, ?_, habove, ?_⟩, h.trans hv.leaves⟩
    · rw [hlast, Traversal.candidates, Traversal.candidates, h.frames]
    · exact h.evaluator.trans hunder

theorem Stops.ne_notUnwound (h : s.Stops x t) (depth : Nat) : x ≠ .notUnwound depth := by
  rintro rfl
  rcases h with ⟨hx, -⟩ | ⟨hx, -⟩ <;> cases hx

/-- A stop, too, leaves nothing committed. -/
theorem Stops.evaluator (h : s.Stops x t) : s.evaluator.Under [] t.evaluator := by
  rcases h with ⟨-, hl⟩ | ⟨-, v, hv⟩
  · exact hl.evaluator
  · exact hv.leaves.evaluator

/-! ## One frame -/

theorem Kept.leaves (h : ((s.accept f request).enter f).Kept t) (hp : t.traversal.pending = left) :
    s.Leaves left t.leave where
  evaluator := h.evaluator
  frames := by rw [h.traversal_leave]
  pending := by rw [h.traversal_leave, hp]
  records := by
    have ht : t.leave.table = s.table := h.table
    rw [ht]
    exact List.Subset.refl _

/-- The evaluation of a capture that fails is the one to blame, in the frame opened for it. -/
theorem FailsAt.stops (h : ((s.accept f request).enter f).FailsAt f x t) : s.Stops x t.leave := by
  rcases h.cause with hr | ⟨hx, v, hv, hspans⟩
  · exact .inl ⟨hr.refusal, h.kept.leaves hr.pending⟩
  · refine .inr ⟨hx, v, hv, hspans.told, ?_, ⟨request.location, [], ?_, by simp, ?_⟩, ?_⟩
    · exact congrArg Model.evaluations hspans.after
    · have hvisits : t.leave.visits = (s.accept f request).visits := h.kept.visits
      rw [hvisits, hspans.callee]
      rfl
    · rw [hspans.model]
      exact .refl _
    · exact h.kept.leaves (hspans.pending.trans (List.nil_append _))

theorem Gains.leaves (h : ((s.accept f request).enter f).Gains c r t) : s.Leaves [] t.leave where
  evaluator := h.evaluator
  frames := by rw [h.traversal_leave]
  pending := by rw [h.traversal_leave, List.append_nil]
  records := fun _ hq => (Table.mem_records_insert? h.table).2 (.inl hq)

/-- What is left over under the commit of a candidate is left over when its frame is left. -/
theorem Leaves.unwind (h : ((s.accept f request).enter f).Gains c r t) (hu : (t.commit r.effects).Leaves left u) :
    s.Leaves left (t.unwind r.effects u) := by
  have hframes := hu.frames
  have hpending := hu.pending
  rw [h.traversal_commit] at hframes hpending
  refine ⟨?_, by rw [traversal_unwind hframes], ?_, fun q hq => hu.records (h.leaves.records hq)⟩
  · have hcommit := (Model.Under.refl t.evaluator).commit r.effects
    exact h.evaluator.later ((Model.Under.refl t.evaluator).rollback (hcommit.later hu.evaluator))
  · rw [traversal_unwind hframes, hpending, List.nil_append]

theorem Stops.unwind (h : ((s.accept f request).enter f).Gains ⟨f, request⟩ r t)
    (hu : (t.commit r.effects).Stops x u) : s.Stops x (t.unwind r.effects u) := by
  rcases hu with ⟨hx, hl⟩ | ⟨hx, v, hv⟩
  · exact .inl ⟨hx, hl.unwind h⟩
  · obtain ⟨location, above, hlast, habove, hunder⟩ := hv.enclosed
    have hr : r ∈ t.table.records := (Table.mem_records_insert? h.table).2 (.inr rfl)
    refine .inr ⟨hx, v, hv.blamed, hv.told, hv.evaluations, ⟨location, above ++ [r], ?_, ?_, ?_⟩, hv.leaves.unwind h⟩
    · have howner : r.owner = f := congrArg Candidate.callable h.candidate
      have hcandidates : (t.commit r.effects).traversal.candidates = f :: s.traversal.candidates := by
        rw [Traversal.candidates, h.traversal_commit]
        rfl
      have hvisits : (t.unwind r.effects u).visits = u.visits := rfl
      rw [hvisits, hlast, hcandidates]
      simp [howner]
    · intro q hq
      rcases List.mem_append.1 hq with hq | hq
      · exact habove q hq
      · rw [List.mem_singleton.1 hq]
        exact hv.leaves.records hr
    · have hcommit : s.evaluator.Under (([] ++ [r.effects]) ++ Record.effectsAlong above) v.model :=
        (h.evaluator.commit r.effects).trans hunder
      simpa [Record.effectsAlong] using hcommit

end Session

namespace Analysis

variable (setup : Setup)

/-! ## Discovery -/

/-- Processing a request, with everything that it reveals, leaves what is open as it was. -/
theorem process_leaves (levels : Nat) (request : Request) (s : Session Model) :
    (process setup levels request).Ends s (fun _ => s.Leaves []) s.Stops := by
  induction levels using Nat.strongRecOn generalizing request s with
  | ind levels ih =>
    have haside : ∀ visits reporter, s.Leaves [] { s with visits, reporter } := fun _ _ => .noted rfl rfl rfl
    refine Ends.process (fun _ _ _ => haside _ _) (fun _ _ _ h => .inl ⟨h.refusal, haside _ _⟩)
      (fun _ _ _ _ h => h.stops) (fun _ _ _ _ _ h => h.leaves) ?_
    rintro f r t rest requests - rfl h
    have hnested : (requests.forM (process setup rest)).Ends (t.commit r.effects)
        (fun _ => (t.commit r.effects).Leaves []) (t.commit r.effects).Stops := by
      refine Ends.forM (fun request _ u hu => ?_) (.noted rfl rfl rfl)
      exact (ih rest (Nat.lt_succ_self _) request u).mono (fun _ _ => hu.trans) fun _ _ => .trans hu
    exact hnested.mono (fun _ _ hu => hu.unwind h) fun _ _ hu => hu.unwind h

theorem drain_leaves (queue : List Request) (s : Session Model) :
    (drain setup queue).Ends s (fun _ => s.Leaves []) s.Stops := by
  refine Ends.drain (I := fun _ => s.Leaves []) (fun request queue t ht => ?_) (.noted rfl rfl rfl)
  have hqueue : s.Leaves [] { t with queue } := ht.trans (.noted rfl rfl rfl)
  exact (process_leaves setup _ request _).mono (fun _ _ => hqueue.trans) fun _ _ => .trans hqueue

/-- Discovery ends as the processing of the queue does, unless frames are open after all of it. -/
theorem discover_cases (s : Session Model) :
    (∃ t, drain setup s.queue s = .ok () t ∧ t.traversal.depth = 0 ∧ discover setup s = .ok () t) ∨
    (∃ t reporter, drain setup s.queue s = .ok () t ∧ 0 < t.traversal.depth ∧
      discover setup s = .error (.notUnwound t.traversal.depth) { t with reporter }) ∨
    ∃ x t, drain setup s.queue s = .error x t ∧ discover setup s = .error x t := by
  simp only [discover, Bind.bind, EStateM.bind, get_apply]
  cases drain setup s.queue s with
  | error x t => exact .inr (.inr ⟨x, t, rfl, rfl⟩)
  | ok _ t =>
    cases hf : t.traversal.frames with
    | nil => exact .inl ⟨t, rfl, by simp [Traversal.depth, hf], by simp [Traversal.isUnwound, hf]; rfl⟩
    | cons frame frames =>
      exact .inr (.inl ⟨t, _, rfl, by simp [Traversal.depth, hf], by simp only [Traversal.isUnwound, hf]; rfl⟩)

/-- However discovery ends, the open frames are those from before. Pending is what was pending before, and if an
evaluation failed then what that one registered, in order. That frames are still open is the failure exactly when all
requests were processed and frames were open from the start. -/
theorem discover_restores_traversal (s : Session Model) :
    (discover setup).Ends s
      (fun _ t => t.traversal.frames = s.traversal.frames ∧ t.traversal.pending = s.traversal.pending)
      (fun x t => t.traversal.frames = s.traversal.frames ∧
        if x.ofEvaluation then ∃ v, s.StopsIn v x t ∧ t.traversal.pending = s.traversal.pending ++ v.registered
        else t.traversal.pending = s.traversal.pending) ∧
    ∀ depth, (∃ t, discover setup s = .error (.notUnwound depth) t) ↔
      (∃ t, drain setup s.queue s = .ok () t) ∧ 0 < s.traversal.depth ∧ depth = s.traversal.depth := by
  have hdrain := drain_leaves setup s.queue s
  have hkept : ∀ {t : Session Model}, s.Leaves [] t → t.traversal.frames = s.traversal.frames ∧
      t.traversal.pending = s.traversal.pending ∧ t.traversal.depth = s.traversal.depth := fun h =>
    ⟨h.frames, h.pending.trans (List.append_nil _), congrArg List.length h.frames⟩
  unfold Ends at hdrain ⊢
  rcases discover_cases setup s with ⟨t, hd, hz, he⟩ | ⟨t, reporter, hd, hz, he⟩ | ⟨x, t, hd, he⟩
  all_goals rw [hd] at hdrain; rw [hd, he]
  · obtain ⟨hframes, hpending, hdepth⟩ := hkept hdrain
    exact ⟨⟨hframes, hpending⟩, fun depth => by simp [← hdepth, hz]⟩
  · obtain ⟨hframes, hpending, hdepth⟩ := hkept hdrain
    exact ⟨⟨hframes, hpending⟩, fun depth => by simp [← hdepth, hz, eq_comm]⟩
  · refine ⟨?_, fun depth => by simp [hdrain.ne_notUnwound depth]⟩
    rcases hdrain with ⟨hx, hl⟩ | ⟨hx, v, hv⟩
    · obtain ⟨hframes, hpending, -⟩ := hkept hl
      simp [hframes, hpending, Failure.ofEvaluation_of_isRefusal hx]
    · simp only [hx, if_true]
      exact ⟨hv.leaves.frames, v, hv, hv.leaves.pending⟩

/-! ## Whole runs -/

/-- What was committed from `s` to `t` was rolled back. -/
def Restored (s t : Session Model) : Prop := s.evaluator.Under [] t.evaluator

instance : IsPreorder (Session Model) Restored where
  refl s := .refl s.evaluator
  trans _ _ _ h h' := h.later h'

theorem discover_restores : Follows Restored (discover setup) := by
  intro s
  have hdrain := (drain_leaves setup s.queue s).mono (fun _ _ h => h.evaluator) fun _ _ h => h.evaluator
  exact Ends.discover hdrain fun _ _ h => h

theorem report_restores (d : Diagnostic) : Follows Restored (report d) := fun s => Ends.report fun _ _ => .refl s.evaluator

/-- A replay rolls back the effects of all ancestors, also if its evaluation fails. -/
theorem replay_restores (r : Record) : Follows Restored (replay setup r) := by
  intro s
  refine Ends.get ?_
  simp only [withinAll_watchReplay]
  cases s.placeholders.synthesize r.owner r.signature r.candidate.request.shape with
  | error p => exact Ends.throw (Model.Under.refl s.evaluator)
  | ok result =>
    obtain ⟨-, -, -, -, hafter, -⟩ := (Model.Under.refl s.evaluator).evaluateUnder
      ((s.table.ancestors r.owner).map Record.effects) result.1
    exact hafter

theorem analyse_restores : Follows Restored (analyse setup) :=
  .analyse report_restores (replay_restores setup) (discover_restores setup)

end Analysis

/-- Whichever result a run has, the model afterwards has the same properties, functions, component roots and names as
before, and its count of objects has not gone back. -/
theorem Checker.run_restores_model (c : Checker Model) (roots : List Request) :
    let m := (c.run roots).2.evaluator
    (∀ b, m.get? b = c.evaluator.get? b) ∧ m.functions = c.evaluator.functions ∧ m.roots = c.evaluator.roots ∧
      m.symbols = c.evaluator.symbols ∧ c.evaluator.nextObject ≤ m.nextObject := by
  have hrun := Analysis.analyse_restores c.setup (c.session roots)
  have hunder : c.evaluator.Under [] (c.run roots).2.evaluator := by
    unfold Analysis.Ends at hrun
    unfold Checker.run
    cases hx : Analysis.analyse c.setup (c.session roots) <;> rw [hx] at hrun <;> exact hrun
  exact ⟨congrFun hunder.get?, hunder.functions, hunder.roots, hunder.symbols, hunder.le_next⟩

end Independence
