import Independence.Proofs.Analysis.Phases
import Independence.Proofs.Analysis.Soundness
/-!
# How often candidates are evaluated

A callable is evaluated when it is captured, and it is captured when a request for it is accepted for the first time. So
during discovery the evaluations are those of the records, in the order of the table, and at most one more, which failed.
Verification evaluates each record once again.
-/

namespace Independence

variable {m : Model} {s t u : Session Model} {f : CallableId} {r : Record} {request : Request} {x : Failure}

/-! ## Evaluations one by one -/

/-- The evaluation that captured the record was the one before which `n` evaluations had been made. -/
def Record.EvaluatedAt (r : Record) (n : Nat) : Prop :=
  ∃ (before after : Model) (call : Call) (es : List Event), before.evaluations = n ∧ call.callee = r.owner ∧
    before.traceOf call = .ok r.effects (es, after)

/-- The evaluation to blame for the failure was that of `f`, and `n` evaluations had been made before it. -/
def Failure.EvaluatedAt (x : Failure) (f : CallableId) (n : Nat) : Prop :=
  ∃ v : FailedEvaluation, v.Blamed x ∧ v.call.callee = f ∧ v.model.evaluations = n

theorem FailedEvaluation.evaluations_after (v : FailedEvaluation) : v.after.evaluations = v.model.evaluations + 1 := by
  have h := (Model.model_evaluate (captureObserver v.name).recording v.call (v.watch, #[]) v.model).1
  rw [v.failed] at h
  exact congrArg Model.evaluations h

/-! ## Accepted callables -/

namespace Session

/-- The callables for which a request was accepted, in order. -/
def accepted (s : Session Model) : List CallableId :=
  (s.visits.reverse.filter (·.outcome == .accepted)).map Visit.callable

theorem mem_accepted : f ∈ s.accepted ↔ Accepted s.visits f := by
  simp only [accepted, Accepted, List.mem_map, List.mem_filter, List.mem_reverse, beq_iff_eq]
  exact exists_congr fun v => by rw [and_assoc, and_comm (a := v.outcome = .accepted)]

theorem accepted_accept (s : Session Model) (f : CallableId) (request : Request) :
    (s.accept f request).accepted = s.accepted ++ [f] := by
  simp [accepted, accept]

theorem accepted_congr (h : t.visits = s.visits) : t.accepted = s.accepted := by rw [accepted, h, accepted]

/-- To note that a request was put aside accepts nothing. -/
theorem accepted_noted {noted : List Visit} (h : ∀ v ∈ noted, v.outcome ≠ .accepted) (hv : t.visits = noted ++ s.visits) :
    t.accepted = s.accepted := by
  have hnone : noted.reverse.filter (·.outcome == .accepted) = [] :=
    List.filter_eq_nil_iff.2 fun v hv => by simpa using h v (List.mem_reverse.1 hv)
  rw [accepted, hv, List.reverse_append, List.filter_append, hnone, List.append_nil, accepted]

/-! ## Discovery -/

/-- Since the model was `m` there was one evaluation for each record, in the order of the table, and the owners of the
records are what was accepted. -/
structure Counted (m : Model) (s : Session Model) : Prop where
  evaluations : s.evaluator.evaluations = m.evaluations + s.table.size
  accepted : s.accepted = s.table.owners
  evaluated : ∀ (i : Nat) (r : Record), s.table.records[i]? = some r → r.EvaluatedAt (m.evaluations + i)

/-- So it was until a failure: if it is that of an evaluation then there was one more, of a callable that was accepted
besides the owners of the records. -/
structure Miscounted (m : Model) (x : Failure) (s : Session Model) : Prop where
  evaluations : s.evaluator.evaluations = m.evaluations + s.table.size + if x.ofEvaluation then 1 else 0
  accepted : s.accepted = s.table.owners ∧ x.ofEvaluation = false ∨
    ∃ f ∉ s.table.owners, s.accepted = s.table.owners ++ [f] ∧
      (x.ofEvaluation = true → x.EvaluatedAt f (m.evaluations + s.table.size))
  evaluated : ∀ (i : Nat) (r : Record), s.table.records[i]? = some r → r.EvaluatedAt (m.evaluations + i)

theorem Counted.start (m : Model) (roots : List Request) (reporter : Reporter) (placeholders : Placeholders) :
    Counted m { Session.start m roots reporter with placeholders } :=
  ⟨rfl, rfl, fun _ _ h => by cases h⟩

theorem Counted.of_eq (h : s.Counted m) (he : t.evaluator.evaluations = s.evaluator.evaluations)
    (ha : t.accepted = s.accepted) (ht : t.table = s.table) : t.Counted m where
  evaluations := by rw [he, ht, h.evaluations]
  accepted := by rw [ha, ht, h.accepted]
  evaluated := by
    rw [ht]
    exact h.evaluated

theorem Miscounted.of_eq (h : s.Miscounted m x) (he : t.evaluator.evaluations = s.evaluator.evaluations)
    (ha : t.accepted = s.accepted) (ht : t.table = s.table) : t.Miscounted m x where
  evaluations := by rw [he, ht, h.evaluations]
  accepted := by
    rw [ha, ht]
    exact h.accepted
  evaluated := by
    rw [ht]
    exact h.evaluated

/-- A failure that is not that of an evaluation, while nothing is entered. -/
theorem Counted.miscounted (h : s.Counted m) (hx : x.ofEvaluation = false) : s.Miscounted m x where
  evaluations := by simp [h.evaluations, hx]
  accepted := .inl ⟨h.accepted, hx⟩
  evaluated := h.evaluated

theorem Counted.nodup (h : s.Counted m) : s.accepted.Nodup := by
  rw [h.accepted]
  exact s.table.nodup_owners

/-- No two of the callables accepted are the same. -/
theorem Miscounted.nodup (h : s.Miscounted m x) : s.accepted.Nodup := by
  rcases h.accepted with ⟨ha, -⟩ | ⟨f, hf, ha, -⟩
  · rw [ha]
    exact s.table.nodup_owners
  · rw [ha, List.nodup_append]
    refine ⟨s.table.nodup_owners, List.nodup_singleton f, ?_⟩
    rintro g hg _ hf' rfl
    exact hf (List.mem_singleton.1 hf' ▸ hg)

/-- What a request admits is not the owner of a record. -/
theorem Counted.notMem_owners (h : s.Counted m) (hf : s.Admits request f) : f ∉ s.table.owners := by
  rw [← h.accepted, mem_accepted]
  exact hf.unseen

theorem Counted.refused (h : s.Counted m) {levels : Nat} {noted : List Visit} (hr : s.Refused request levels x noted)
    (reporter : Reporter) : Miscounted m x { s with visits := noted ++ s.visits, reporter } := by
  have hx := Failure.ofEvaluation_of_isRefusal hr.refusal
  rcases hr.reason with ⟨-, haside⟩ | ⟨-, f, hf, rfl⟩
  · exact (h.miscounted hx).of_eq rfl (accepted_noted haside rfl) rfl
  · have haccepted : (s.accept f request).accepted = s.table.owners ++ [f] := by rw [accepted_accept, h.accepted]
    refine ⟨(h.miscounted hx).evaluations, .inr ⟨f, h.notMem_owners hf, haccepted, fun hx' => ?_⟩, h.evaluated⟩
    rw [hx] at hx'
    cases hx'

/-- The capture of a candidate that was entered fails. -/
theorem Counted.fails (h : s.Counted m) (hf : s.Admits request f)
    (ht : ((s.accept f request).enter f).FailsAt f x t) : t.leave.Miscounted m x := by
  have htable : t.leave.table = s.table := ht.kept.table
  have haccepted : t.leave.accepted = s.table.owners ++ [f] := by
    rw [accepted_congr (t := t.leave) (s := s.accept f request) ht.kept.visits, accepted_accept, h.accepted]
  have hcount : t.leave.evaluator.evaluations = m.evaluations + s.table.size + (if x.ofEvaluation then 1 else 0) ∧
      (x.ofEvaluation = true → x.EvaluatedAt f (m.evaluations + s.table.size)) := by
    rcases ht.cause with hr | ⟨hx, v, hv, hspans⟩
    · have hx := Failure.ofEvaluation_of_isRefusal hr.refusal
      have he : t.leave.evaluator = s.evaluator := hr.evaluator
      simp [he, hx, h.evaluations]
    · have hmodel : v.model.evaluations = m.evaluations + s.table.size := by
        rw [hspans.model]
        exact h.evaluations
      have he : t.leave.evaluator = v.after := hspans.after
      refine ⟨?_, fun _ => ⟨v, hv, hspans.callee, hmodel⟩⟩
      rw [he, v.evaluations_after, hmodel, if_pos hx]
  refine ⟨htable ▸ hcount.1, .inr ⟨f, ?_, ?_, ?_⟩, htable ▸ h.evaluated⟩
  · rw [htable]
    exact h.notMem_owners hf
  · rw [htable, haccepted]
  · rw [htable]
    exact hcount.2

/-- A record is added, which took one evaluation. -/
theorem Counted.gains (h : s.Counted m) (ht : ((s.accept f request).enter f).Gains ⟨f, request⟩ r t) : t.Counted m := by
  have hrecords : t.table.records = s.table.records ++ [r] := Table.records_insert? ht.table
  have howner : r.owner = f := congrArg Candidate.callable ht.candidate
  obtain ⟨call, es, hcallee, -, htrace⟩ := ht.traced
  refine ⟨?_, ?_, fun i q hi => ?_⟩
  · have hone := (Model.model_evaluate .trace call [] s.evaluator).1
    have htrace : s.evaluator.traceOf call = .ok r.effects (es, t.evaluator) := htrace
    rw [← Model.traceOf, htrace] at hone
    have hone : t.evaluator.evaluations = s.evaluator.evaluations + 1 := congrArg Model.evaluations hone
    rw [hone, h.evaluations, Table.size, Table.size, hrecords, List.length_append, List.length_singleton, Nat.add_assoc]
  · rw [accepted_congr (s := s.accept f request) ht.visits, accepted_accept, h.accepted, Table.owners, Table.owners,
      hrecords, List.map_append, List.map_singleton, howner]
  · rw [hrecords, List.getElem?_append] at hi
    split at hi
    · exact h.evaluated i q hi
    · next hlast =>
      rw [List.getElem?_singleton] at hi
      split at hi
      · next hzero =>
        cases hi
        have hi : i = s.table.size := Nat.le_antisymm (Nat.sub_eq_zero_iff_le.1 hzero) (Nat.le_of_not_lt hlast)
        exact ⟨s.evaluator, t.evaluator, call, es, hi ▸ h.evaluations, hcallee.trans howner.symm, htrace⟩
      · cases hi

end Session

namespace Analysis

variable {setup : Setup}

/-- Processing a request keeps the count, however deep its candidates are nested. -/
theorem process_counts (levels : Nat) (request : Request) (hs : s.Counted m) :
    (process setup levels request).Ends s (fun _ => Session.Counted m) (Session.Miscounted m) := by
  induction levels using Nat.strongRecOn generalizing request s with
  | ind levels ih =>
    refine Ends.process (fun noted _ h => hs.of_eq rfl (Session.accepted_noted h.again rfl) rfl)
      (fun _ _ reporter h => hs.refused h reporter) (fun _ _ _ hf h => hs.fails hf h)
      (fun _ _ _ _ _ h => (hs.gains h).of_eq rfl rfl rfl) ?_
    rintro f r t rest requests - rfl h
    have hnested : (requests.forM (process setup rest)).Ends (t.commit r.effects)
        (fun _ => Session.Counted m) (Session.Miscounted m) :=
      Ends.forM (fun request _ u hu => ih rest (Nat.lt_succ_self _) request hu) ((hs.gains h).of_eq rfl rfl rfl)
    exact hnested.mono (fun _ _ hu => hu.of_eq rfl rfl rfl) fun _ _ hu => hu.of_eq rfl rfl rfl

theorem discover_counts (hs : s.Counted m) :
    (discover setup).Ends s (fun _ => Session.Counted m) (Session.Miscounted m) :=
  Ends.discover
    (Ends.drain (I := fun _ => Session.Counted m) (fun request _ _ ht => process_counts _ request (ht.of_eq rfl rfl rfl)) hs)
    fun _ _ ht => (ht.miscounted rfl).of_eq rfl rfl rfl

/-! ## Replays -/

theorem withinAll_evaluations {α : Type} (chain : List Effects) {body : Model → α × Model} {n : Nat}
    (h : ∀ m, (body m).2.evaluations = m.evaluations + n) (m : Model) :
    (Evaluator.withinAll chain body m).2.evaluations = m.evaluations + n := by
  induction chain generalizing m with
  | nil => exact h m
  | cons e chain ih => exact ih (Evaluator.commit e m).1

theorem watchReplay_evaluations (t : Table) (reader : CallableId) (call : Call) (m : Model) :
    (watchReplay t reader call m).2.evaluations = m.evaluations + 1 := by
  have hone := (Model.model_evaluate (Replay.observer t reader) call Replay.start m).1
  have hwatch : (watchReplay t reader call m).2 =
      (finalState (Model.evaluate (Replay.observer t reader) call (Replay.start, m))).2 := by
    have he : Evaluator.evaluate (Replay.observer t reader) call (Replay.start, m) =
      Model.evaluate (Replay.observer t reader) call (Replay.start, m) := rfl
    simp only [watchReplay, he]
    cases Model.evaluate (Replay.observer t reader) call (Replay.start, m) <;> rfl
  rw [hwatch]
  exact congrArg Model.evaluations hone

/-- A replay takes one evaluation. -/
theorem replay_counts (r : Record) (s : Session Model) :
    (replay setup r).Ends s (fun _ t => t.evaluator.evaluations = s.evaluator.evaluations + 1) fun _ _ => True := by
  refine Ends.get ?_
  simp only
  split
  · exact Ends.throw trivial
  · exact Ends.set (Ends.pure (withinAll_evaluations _ (watchReplay_evaluations s.table r.owner _) s.evaluator))

theorem mapM_replay_counts (rs : List Record) (s : Session Model) :
    (rs.mapM (replay setup)).Ends s
      (fun _ t => t.evaluator.evaluations = s.evaluator.evaluations + rs.length) fun _ _ => True := by
  induction rs generalizing s with
  | nil => rfl
  | cons r rs ih =>
    rw [List.mapM_cons]
    refine Ends.bind (replay_counts r s) fun _ t ht => Ends.bind (ih t) fun _ u hu => Ends.pure ?_
    rw [hu, ht, List.length_cons]
    omega

/-- Verification evaluates every record once. -/
theorem verify_counts (s : Session Model) :
    (verify setup).Ends s
      (fun _ t => t.evaluator.evaluations = s.evaluator.evaluations + s.table.size) fun _ _ => True := by
  refine Ends.bind ((checkCompletions_ends setup s).mono (fun _ _ h => h) fun _ _ _ => trivial) ?_
  rintro _ _ ⟨reporter, rfl⟩
  refine Ends.bind (Q := fun _ t => t.evaluator.evaluations = s.evaluator.evaluations + s.table.size) ?_
    fun _ t ht => Ends.get (Ends.pure ht)
  exact Ends.get (mapM_replay_counts s.table.records { s with reporter })

end Analysis

/-! ## Whole runs -/

namespace Checker

variable {c : Checker Model} {roots : List Request}

/-- A run that gets as far as the check made two evaluations for each record. -/
theorem ReachesCheck.evaluations (h : c.ReachesCheck roots) :
    (c.run roots).2.evaluator.evaluations = c.evaluator.evaluations + 2 * (c.finished roots).table.size := by
  obtain ⟨s, t, conflicts, hd, -, hv, hfinished⟩ := h.verified
  have hsimple : Analysis.Simple s.table := (Analysis.discover_simple c.setup fun _ h => by cases h).of_ok hd
  have hcounted := (Analysis.discover_counts (.start c.evaluator roots _ .none)).of_ok hd
  have hreplayed := (Analysis.verify_counts s).of_ok hv
  obtain ⟨-, htable, -⟩ := (Analysis.verify_tells c.setup hsimple).of_ok hv
  rw [run_leaves, hfinished]
  change t.evaluator.evaluations = c.evaluator.evaluations + 2 * t.table.size
  rw [hreplayed, htable, hcounted.evaluations]
  omega

/-- Each callable is evaluated once per phase. During discovery, from a fresh queue, traversal and table, there is one
evaluation for each record, in the order of the table, and one more exactly if the failure is that of an evaluation: of
a callable without a record. No callable is accepted twice, however often and wherever it is requested. A run that
succeeds, or fails because of conflicts, makes exactly two evaluations for each record. -/
theorem evaluates_each_once_a_phase (c : Checker Model) (roots : List Request) :
    (∀ (reporter : Reporter) (placeholders : Placeholders),
      (Analysis.discover c.setup).Ends { Session.start c.evaluator roots reporter with placeholders }
        (fun _ t => t.Counted c.evaluator ∧ t.accepted.Nodup)
        fun x t => t.Miscounted c.evaluator x ∧ t.accepted.Nodup) ∧
    (∀ v, (c.run roots).1 = .ok v →
      (c.run roots).2.evaluator.evaluations = c.evaluator.evaluations + 2 * v.table.size) ∧
    ∀ f count, (c.run roots).1 = .error f → f.failure = .writeConflicts count →
      (c.run roots).2.evaluator.evaluations = c.evaluator.evaluations + 2 * (c.finished roots).table.size := by
  refine ⟨fun reporter placeholders => ?_, fun v hv => ?_, fun f count hf hcount => ?_⟩
  · exact (Analysis.discover_counts (.start c.evaluator roots reporter placeholders)).mono
      (fun _ _ h => ⟨h, h.nodup⟩) fun _ _ h => ⟨h, h.nodup⟩
  · have hevaluations := ReachesCheck.evaluations (.inl ⟨v, hv⟩)
    rw [eq_of_run_ok hv]
    exact hevaluations
  · exact ReachesCheck.evaluations (.inr ⟨f, count, hf, hcount⟩)

/-- The three functions of the sample are evaluated six times. -/
theorem evaluates_each_once_a_phase_sample : ∃ v, (sample.run [.ofCallable ⟨0⟩, .ofCallable ⟨2⟩]).1 = .ok v ∧
    v.table.size = 3 ∧ (sample.run [.ofCallable ⟨0⟩, .ofCallable ⟨2⟩]).2.evaluator.evaluations = 0 + 2 * 3 := by
  have h : ((sample.run [.ofCallable ⟨0⟩, .ofCallable ⟨2⟩]).1.toOption.any fun v => v.table.size == 3) = true := by
    decide +kernel
  obtain ⟨v, hv, hsize⟩ := exists_ok_of_any h
  have hsize := beq_iff_eq.1 hsize
  obtain ⟨-, hevaluations, -⟩ := evaluates_each_once_a_phase sample [.ofCallable ⟨0⟩, .ofCallable ⟨2⟩]
  exact ⟨v, hv, hsize, hsize ▸ hevaluations v hv⟩

end Checker

end Independence
