import Independence.Proofs.Evaluation.Agreement
import Independence.Proofs.Analysis.Lockstep
/-!
# Two analyses in concord

Two analyses of one model may differ in their names, their limit, their policies and in what they noted and reported by
now, and still take the same course. What they may differ in is a concord, if reports and look-ups do not tell the two
apart. The first analysis may also be the stricter one: then it may fail where the second one goes on. This is said once
here, for every step of discovery, and each kind of difference is an instance of it.
-/

namespace Independence

/-! ## Counterparts -/

/-- The failure without the name in it. -/
def Failure.unnamed : Failure → Failure
  | .unsupportedParameter f _ index => .unsupportedParameter f "" index
  | .doubleOptimization f _ => .doubleOptimization f ""
  | .sideEffectEscalated f _ => .sideEffectEscalated f ""
  | .invalidTarget target location => .invalidTarget target location
  | .abruptCompletion count => .abruptCompletion count
  | .writeConflicts count => .writeConflicts count
  | .depthExceeded limit => .depthExceeded limit
  | .notUnwound depth => .notUnwound depth
  | .evaluation e => .evaluation e

/-- The two failures differ in the name at most, and in nothing if the names are the `same`. -/
structure Failure.Counterpart (same : Prop) (x x' : Failure) : Prop where
  unnamed : x'.unnamed = x.unnamed
  equal : same → x' = x

/-- The two diagnostics are of one problem at one place, and they are equal if the names are the `same`. -/
structure Diagnostic.Counterpart (same : Prop) (d d' : Diagnostic) : Prop where
  severity : d'.severity = d.severity
  code : d'.code = d.code
  location : d'.location = d.location
  equal : same → d' = d

theorem Failure.Counterpart.refl {same : Prop} (x : Failure) : x.Counterpart same x := ⟨rfl, fun _ => rfl⟩

namespace Diagnostic.Counterpart

variable {same : Prop} {message message' name name' : String}

theorem refl (d : Diagnostic) : d.Counterpart same d := ⟨rfl, rfl, rfl, fun _ => rfl⟩

/-- One problem in other words. -/
theorem fatal (code : Code) (location : Option Location) (h : same → message' = message) :
    (Diagnostic.fatal code message location).Counterpart same (.fatal code message' location) :=
  ⟨rfl, rfl, rfl, fun hsame => by rw [h hsame]⟩

theorem unsupportedParameter (p : UnsupportedParameter) (h : same → name' = name) :
    (p.diagnostic name).Counterpart same (p.diagnostic name') := by
  unfold UnsupportedParameter.diagnostic
  exact .fatal _ _ fun hsame => by rw [h hsame]

theorem sideEffect (e : SideEffect) (h : same → name' = name) :
    (e.diagnostic name).Counterpart same (e.diagnostic name') :=
  ⟨rfl, rfl, rfl, fun hsame => by rw [h hsame]⟩

theorem duplicate (first : Visit) (location : Option Location) (h : same → name' = name) :
    (Analysis.duplicateDiagnostic name first location).Counterpart same
      (Analysis.duplicateDiagnostic name' first location) := by
  refine ⟨?_, ?_, ?_, fun hsame => by rw [h hsame]⟩
  all_goals
    unfold Analysis.duplicateDiagnostic
    split <;> rfl

end Diagnostic.Counterpart

/-- What two analyses may differ in. -/
structure Concord where
  setup : Setup
  setup' : Setup
  /-- The first analysis may fail where the second one goes on. -/
  gives : Prop
  visits : List Visit → List Visit → Prop
  reporters : Reporter → Reporter → Prop
  limits : setup'.maxNesting = setup.maxNesting ∨ gives ∧ setup.maxNesting ≤ setup'.maxNesting
  noted : ∀ {vs vs' : List Visit} (v : Visit), visits vs vs' → visits (v :: vs) (v :: vs')
  /-- The same requests count as accepted. -/
  found : ∀ {vs vs' : List Visit} (f : CallableId), visits vs vs' →
    vs'.find? (fun v => v.callable == f && v.outcome == .accepted) =
      vs.find? fun v => v.callable == f && v.outcome == .accepted
  /-- A report is answered alike, but that the first analysis may be told to abort. -/
  reported : ∀ {r r' : Reporter} {d d' : Diagnostic}, reporters r r' →
    d.Counterpart (setup'.names = setup.names) d' →
    ((r'.report d').1 = (r.report d).1 ∨ gives ∧ (r.report d).1 = .abort) ∧
      reporters (r.report d).2 (r'.report d').2

namespace Concord

open Analysis (report note)

variable {C : Concord} {s s' t t' : Session Model} {α α' β β' : Type}

/-- The concord of two analyses that note the same. -/
def noting (setup setup' : Setup) (gives : Prop) (reporters : Reporter → Reporter → Prop)
    (limits : setup'.maxNesting = setup.maxNesting ∨ gives ∧ setup.maxNesting ≤ setup'.maxNesting)
    (reported : ∀ {r r' : Reporter} {d d' : Diagnostic}, reporters r r' →
      d.Counterpart (setup'.names = setup.names) d' →
      ((r'.report d').1 = (r.report d).1 ∨ gives ∧ (r.report d).1 = .abort) ∧
        reporters (r.report d).2 (r'.report d').2) : Concord where
  setup := setup
  setup' := setup'
  gives := gives
  visits := Eq
  reporters := reporters
  limits := limits
  noted v hvisits := by rw [hvisits]
  found f hvisits := by rw [hvisits]
  reported := reported

/-- The two analyses have the same names. -/
def same (C : Concord) : Prop := C.setup'.names = C.setup.names

theorem resolve_eq (C : Concord) (h : C.same) (m : Model) (f : CallableId) :
    C.setup'.names.resolve m f = C.setup.names.resolve m f := by
  rw [show C.setup'.names = C.setup.names from h]

/-- The two sessions are equal up to what the concord allows. The queues may be any. -/
structure Matches (C : Concord) (s s' : Session Model) : Prop where
  evaluator : s'.evaluator = s.evaluator
  traversal : s'.traversal = s.traversal
  placeholders : s'.placeholders = s.placeholders
  table : s'.table = s.table
  visits : C.visits s.visits s'.visits
  reporters : C.reporters s.reporter s'.reporter

/-- What is not compared may be anything. -/
theorem Matches.aside (h : C.Matches s s') (queue queue' : List Request) :
    C.Matches { s with queue } { s' with queue := queue' } :=
  ⟨h.evaluator, h.traversal, h.placeholders, h.table, h.visits, h.reporters⟩

theorem Matches.enter (h : C.Matches s s') (f : CallableId) : C.Matches (s.enter f) (s'.enter f) :=
  ⟨h.evaluator, congrArg (Traversal.enter · f) h.traversal, h.placeholders, h.table, h.visits, h.reporters⟩

theorem Matches.leave (h : C.Matches s s') : C.Matches s.leave s'.leave :=
  ⟨h.evaluator, congrArg Traversal.leave h.traversal, h.placeholders, h.table, h.visits, h.reporters⟩

theorem Matches.commit (h : C.Matches s s') (e : Effects) :
    C.Matches { s with evaluator := (Evaluator.commit e s.evaluator).1 }
      { s' with evaluator := (Evaluator.commit e s'.evaluator).1 } :=
  ⟨by rw [h.evaluator], h.traversal, h.placeholders, h.table, h.visits, h.reporters⟩

theorem Matches.accepted? (h : C.Matches s s') (f : CallableId) : s'.accepted? f = s.accepted? f := C.found f h.visits

theorem Matches.accepted_iff (h : C.Matches s s') (f : CallableId) : Accepted s'.visits f ↔ Accepted s.visits f := by
  rw [← not_iff_not, ← Session.accepted?_eq_none_iff, ← Session.accepted?_eq_none_iff, h.accepted?]

/-- From `s` and `s'` the two steps have results that `Q` relates, or they fail with counterparts, and the sessions
match then. Or the first one fails and may do so. -/
def Tracks (C : Concord) (x : Analysis Model α) (x' : Analysis Model α') (Q : α → α' → Prop) (s s' : Session Model) :
    Prop :=
  match x s, x' s' with
  | .ok a t, .ok a' t' => Q a a' ∧ C.Matches t t'
  | .error e t, .error e' t' => C.gives ∨ e.Counterpart C.same e' ∧ C.Matches t t'
  | .error _ _, .ok _ _ => C.gives
  | .ok _ _, .error _ _ => False

/-! ## Steps in concord -/

namespace Tracks

variable {x : Analysis Model α} {x' : Analysis Model α'} {k : α → Analysis Model β} {k' : α' → Analysis Model β'}
  {Q : α → α' → Prop} {R : β → β' → Prop}

theorem of_gives (hgives : C.gives) (h : ∃ e t, x s = .error e t) : C.Tracks x x' Q s s' := by
  obtain ⟨e, t, hx⟩ := h
  unfold Tracks
  rw [hx]
  cases x' s' with
  | ok a t => exact hgives
  | error e t => exact .inl hgives

/-- Where the first one goes on, the second one does. -/
theorem exists_ok {a : α} (h : C.Tracks x x' Q s s') (hx : x s = .ok a t) :
    ∃ a' t', x' s' = .ok a' t' ∧ Q a a' ∧ C.Matches t t' := by
  unfold Tracks at h
  rw [hx] at h
  cases hx' : x' s' with
  | ok a' t' =>
    rw [hx'] at h
    exact ⟨a', t', rfl, h⟩
  | error e' t' =>
    rw [hx'] at h
    exact h.elim

theorem pure {a : α} {a' : α'} (h : Q a a') (hs : C.Matches s s') :
    C.Tracks (Pure.pure a) (Pure.pure a') Q s s' := ⟨h, hs⟩

theorem throw {e e' : Failure} (he : e.Counterpart C.same e') (hs : C.Matches s s') :
    C.Tracks (MonadExcept.throw e : Analysis Model α) (MonadExcept.throw e' : Analysis Model α') Q s s' :=
  .inr ⟨he, hs⟩

/-- Of what comes next it is enough to know where the two have come to. -/
theorem bind_of_ok (h : C.Tracks x x' Q s s')
    (hk : ∀ a a' t t', x s = .ok a t → x' s' = .ok a' t' → Q a a' → C.Matches t t' → C.Tracks (k a) (k' a') R t t') :
    C.Tracks (x >>= k) (x' >>= k') R s s' := by
  unfold Tracks at h
  cases hx : x s with
  | ok a t =>
    cases hx' : x' s' with
    | ok a' t' =>
      rw [hx, hx'] at h
      have hnext := hk a a' t t' hx hx' h.1 h.2
      simpa only [Tracks, Bind.bind, EStateM.bind, hx, hx'] using hnext
    | error e' t' =>
      rw [hx, hx'] at h
      exact h.elim
  | error e t =>
    have herror : (x >>= k) s = .error e t := by simp only [Bind.bind, EStateM.bind, hx]
    cases hx' : x' s' with
    | ok a' t' =>
      rw [hx, hx'] at h
      exact of_gives h ⟨e, t, herror⟩
    | error e' t' =>
      rw [hx, hx'] at h
      have herror' : (x' >>= k') s' = .error e' t' := by simp only [Bind.bind, EStateM.bind, hx']
      unfold Tracks
      rw [herror, herror']
      exact h

theorem bind (h : C.Tracks x x' Q s s')
    (hk : ∀ a a' t t', Q a a' → C.Matches t t' → C.Tracks (k a) (k' a') R t t') :
    C.Tracks (x >>= k) (x' >>= k') R s s' :=
  bind_of_ok h fun a a' t t' _ _ => hk a a' t t'

theorem get {k : Session Model → Analysis Model β} {k' : Session Model → Analysis Model β'}
    (h : C.Tracks (k s) (k' s') R s s') : C.Tracks (MonadState.get >>= k) (MonadState.get >>= k') R s s' := h

theorem set {k : Unit → Analysis Model β} {k' : Unit → Analysis Model β'} (h : C.Tracks (k ()) (k' ()) R t t') :
    C.Tracks (MonadStateOf.set t >>= k) (MonadStateOf.set t' >>= k') R s s' := h

theorem modified {f f' : Session Model → Session Model} (h : C.Matches (f s) (f' s')) :
    C.Tracks (modify f) (modify f') (fun _ _ => True) s s' := ⟨trivial, h⟩

theorem inFrame {f : CallableId} (h : C.Tracks x x' Q (s.enter f) (s'.enter f)) :
    C.Tracks (Analysis.inFrame f x) (Analysis.inFrame f x') Q s s' := by
  simp only [Tracks, Session.enter] at h
  simp only [Tracks, Analysis.inFrame]
  cases hx : x { s with traversal := s.traversal.enter f } <;>
    cases hx' : x' { s' with traversal := s'.traversal.enter f } <;> rw [hx, hx'] at h
  · exact ⟨h.1, h.2.leave⟩
  · exact h
  · exact h
  · exact h.imp_right fun h => ⟨h.1, h.2.leave⟩

theorem committed {e : Effects} (hs : s'.evaluator = s.evaluator)
    (h : C.Tracks x x' Q { s with evaluator := (Evaluator.commit e s.evaluator).1 }
      { s' with evaluator := (Evaluator.commit e s'.evaluator).1 }) :
    C.Tracks (Analysis.committed e x) (Analysis.committed e x') Q s s' := by
  have hundo : ∀ {t t'}, C.Matches t t' →
      C.Matches { t with evaluator := Evaluator.rollback t.evaluator (Evaluator.commit e s.evaluator).2 }
        { t' with evaluator := Evaluator.rollback t'.evaluator (Evaluator.commit e s'.evaluator).2 } := fun ht =>
    ⟨by rw [hs, ht.evaluator], ht.traversal, ht.placeholders, ht.table, ht.visits, ht.reporters⟩
  simp only [Tracks] at h
  simp only [Tracks, Analysis.committed]
  cases hx : x { s with evaluator := (Evaluator.commit e s.evaluator).1 } <;>
    cases hx' : x' { s' with evaluator := (Evaluator.commit e s'.evaluator).1 } <;> rw [hx, hx'] at h
  · exact ⟨h.1, hundo h.2⟩
  · exact h
  · exact h
  · exact h.imp_right fun h => ⟨h.1, hundo h.2⟩

theorem forM {f f' : α → Analysis Model PUnit} {as : List α}
    (h : ∀ a ∈ as, ∀ t t', C.Matches t t' → C.Tracks (f a) (f' a) (fun _ _ => True) t t') (hs : C.Matches s s') :
    C.Tracks (as.forM f) (as.forM f') (fun _ _ => True) s s' := by
  induction as generalizing s s' with
  | nil => exact ⟨trivial, hs⟩
  | cons a as ih =>
    exact bind (h a List.mem_cons_self s s' hs) fun _ _ _ _ _ ht => ih (fun b hb => h b (List.mem_cons_of_mem a hb)) ht

theorem mapM {f f' : α → Analysis Model β} {as : List α}
    (h : ∀ a ∈ as, ∀ t t', C.Matches t t' → C.Tracks (f a) (f' a) Eq t t') (hs : C.Matches s s') :
    C.Tracks (as.mapM f) (as.mapM f') Eq s s' := by
  induction as generalizing s s' with
  | nil => exact ⟨rfl, hs⟩
  | cons a as ih =>
    rw [List.mapM_cons, List.mapM_cons]
    refine bind (h a List.mem_cons_self s s' hs) ?_
    rintro b _ t t' rfl ht
    refine bind (ih (fun c hc => h c (List.mem_cons_of_mem a hc)) ht) ?_
    rintro bs _ u u' rfl hu
    exact pure rfl hu

/-- Both report and go on with the answer. If the first one may give up, it does so where it is told to abort. -/
theorem report {d d' : Diagnostic} {k : Decision → Analysis Model β} {k' : Decision → Analysis Model β'}
    (hd : d.Counterpart C.same d') (hs : C.Matches s s')
    (hk : ∀ decision t t', C.Matches t t' → C.Tracks (k decision) (k' decision) R t t')
    (habort : C.gives → ∀ t, ∃ e u, k .abort t = .error e u) :
    C.Tracks (Analysis.report d >>= k) (Analysis.report d' >>= k') R s s' := by
  obtain ⟨hanswer, hnext⟩ := C.reported hs.reporters hd
  have hmatches : C.Matches { s with reporter := (s.reporter.report d).2 } { s' with reporter := (s'.reporter.report d').2 } :=
    ⟨hs.evaluator, hs.traversal, hs.placeholders, hs.table, hs.visits, hnext⟩
  rcases hanswer with hanswer | ⟨hgives, hanswer⟩
  · change C.Tracks (k (s.reporter.report d).1) (k' (s'.reporter.report d').1) R
      { s with reporter := (s.reporter.report d).2 } { s' with reporter := (s'.reporter.report d').2 }
    rw [hanswer]
    exact hk _ _ _ hmatches
  · refine of_gives hgives ?_
    obtain ⟨e, u, hu⟩ := habort hgives { s with reporter := (s.reporter.report d).2 }
    exact ⟨e, u, (congrArg (k · { s with reporter := (s.reporter.report d).2 }) hanswer).trans hu⟩

/-- Both report and fail. -/
theorem fail {d d' : Diagnostic} {e e' : Failure} (hd : d.Counterpart C.same d') (he : e.Counterpart C.same e')
    (hs : C.Matches s s') : C.Tracks (Analysis.fail d e : Analysis Model α) (Analysis.fail d' e' : Analysis Model α') Q s s' :=
  .inr ⟨he, hs.evaluator, hs.traversal, hs.placeholders, hs.table, hs.visits, (C.reported hs.reporters hd).2⟩

end Tracks

/-! ## Captures -/

/-- The observers of two captures of one candidate agree. -/
theorem agrees_captureObserver (C : Concord) {name name' : String} (hname : C.same → name' = name) :
    (captureObserver name).Agrees C.gives
      (fun w w' => C.reporters w.reporter w'.reporter ∧ w'.traversal = w.traversal ∧ w'.escalated = w.escalated)
      (captureObserver name') := by
  rintro e w w' ⟨hreporters, htraversal, hescalated⟩
  cases e with
  | sideEffect e =>
    obtain ⟨hanswer | ⟨hgives, habort⟩, hnext⟩ := C.reported hreporters (.sideEffect e hname)
    · exact .inl ⟨hanswer, hnext, htraversal, by simp only [captureObserver, hescalated, hanswer]⟩
    · exact .inr ⟨hgives, ⟨e, rfl⟩, habort⟩
  | register r => exact .inl ⟨rfl, hreporters, by simp only [captureObserver, htraversal], hescalated⟩
  | _ => exact .inl ⟨rfl, hreporters, htraversal, hescalated⟩

/-- The evaluation of a candidate ends alike, or the first one is aborted and may be. -/
theorem evaluateWatched_tracks {name name' : String} (hname : C.same → name' = name) (call : Call)
    (hs : C.Matches s s') :
    (C.gives ∧ ∃ escalated t, Analysis.evaluateWatched name call s = .ok (.error .aborted, escalated) t) ∨
    C.Tracks (Analysis.evaluateWatched name call) (Analysis.evaluateWatched name' call) Eq s s' := by
  have he : ∀ (name : String) (w : Watch), Evaluator.evaluate (captureObserver name) call (w, s.evaluator) =
    Model.evaluate (captureObserver name) call (w, s.evaluator) := fun _ _ => rfl
  have hagrees := Model.evaluate_of_agrees (C.agrees_captureObserver hname) call
    (s := ⟨s.reporter, s.traversal, false⟩) (t := ⟨s'.reporter, s'.traversal, false⟩)
    ⟨hs.reporters, hs.traversal, rfl⟩ s.evaluator
  simp only [Tracks, Analysis.evaluateWatched, hs.evaluator, he]
  rcases hagrees with ⟨hgives, p, hp⟩ | ⟨w', hw', heval⟩
  · rw [hp]
    exact .inl ⟨hgives, _, _, rfl⟩
  · right
    rw [heval]
    cases hx : Model.evaluate (captureObserver name) call (⟨s.reporter, s.traversal, false⟩, s.evaluator)
    all_goals
      rw [hx] at hw'
      obtain ⟨hreporters, htraversal, hescalated⟩ := hw'
      simp only [mapOutcome, id_eq, hescalated]
      exact ⟨rfl, rfl, htraversal, hs.placeholders, hs.table, hs.visits, hreporters⟩

theorem effectsOf_tracks (f : CallableId) {name name' : String} (hname : C.same → name' = name) (signature : Signature)
    (call : Call) (hs : C.Matches s s') :
    C.Tracks (Analysis.effectsOf f name signature call) (Analysis.effectsOf f name' signature call) Eq s s' := by
  rcases evaluateWatched_tracks hname call hs with ⟨hgives, escalated, t, ht⟩ | htracks
  · refine Tracks.of_gives hgives ?_
    simp only [Analysis.effectsOf, Bind.bind, EStateM.bind, ht]
    cases escalated
    · exact ⟨_, _, rfl⟩
    · exact ⟨_, _, rfl⟩
  · refine Tracks.bind htracks ?_
    rintro ⟨outcome, escalated⟩ _ t t' rfl ht
    cases outcome with
    | ok e => exact Tracks.pure rfl ht
    | error e =>
      cases e with
      | aborted =>
        cases escalated with
        | true => exact Tracks.throw ⟨rfl, fun h => by rw [hname h]⟩ ht
        | false => exact Tracks.fail (.fatal _ _ fun h => by rw [hname h]) (.refl _) ht
      | _ => exact Tracks.fail (.fatal _ _ fun h => by rw [hname h]) (.refl _) ht

theorem capture_tracks (c : Candidate) (hs : C.Matches s s') :
    C.Tracks (Analysis.capture C.setup c) (Analysis.capture C.setup' c) Eq s s' := by
  have hname := fun h => C.resolve_eq h s.evaluator c.callable
  refine Tracks.get ?_
  simp only [hs.evaluator, hs.table, hs.placeholders, hs.traversal]
  split
  · exact Tracks.fail (.fatal _ _ fun h => by rw [hname h]) ⟨rfl, fun h => by rw [hname h]⟩ hs
  · split
    · exact Tracks.fail (.refl _) (.refl _) hs
    · next signature _ =>
      split
      · exact Tracks.fail (.unsupportedParameter _ hname) ⟨rfl, fun h => by rw [hname h]⟩ hs
      · next call placeholders _ =>
        have hset : C.Matches { s with placeholders } { s' with placeholders } :=
          ⟨hs.evaluator, hs.traversal, rfl, hs.table, hs.visits, hs.reporters⟩
        have heffects := effectsOf_tracks c.callable hname signature call hset
        simp only [hs.evaluator, hs.table, hs.traversal] at heffects
        refine Tracks.set (Tracks.bind heffects ?_)
        rintro e _ t t' rfl ht
        exact Tracks.pure rfl ht

/-- The record goes to the ends of both tables, which are equal. -/
theorem captureNew_tracks (c : Candidate) (hs : C.Matches s s') :
    C.Tracks (Analysis.captureNew C.setup c) (Analysis.captureNew C.setup' c) Eq s s' := by
  refine Tracks.bind (capture_tracks c hs) ?_
  rintro r _ t t' rfl ht
  have hname := fun h => C.resolve_eq h t.evaluator c.callable
  refine Tracks.get ?_
  simp only [ht.evaluator, ht.table, ht.traversal]
  split
  · exact Tracks.throw ⟨rfl, fun h => by rw [hname h]⟩ ht
  · exact Tracks.set (Tracks.pure rfl ⟨rfl, rfl, ht.placeholders, rfl, ht.visits, ht.reporters⟩)

/-! ## Requests -/

theorem note_tracks (f : CallableId) (request : Request) (outcome : Outcome) (hs : C.Matches s s') :
    C.Tracks (note f request outcome) (note f request outcome) (fun _ _ => True) s s' := by
  refine Tracks.modified ⟨hs.evaluator, hs.traversal, hs.placeholders, hs.table, ?_, hs.reporters⟩
  simp only [hs.traversal]
  exact C.noted _ hs.visits

/-- A request for a callable that both have accepted. -/
theorem again_tracks (f : CallableId) (first : Visit) (request : Request) (hs : C.Matches s s') :
    C.Tracks (Analysis.again C.setup f first request) (Analysis.again C.setup' f first request) (fun _ _ => True) s s' := by
  have hname := fun h => C.resolve_eq h s.evaluator f
  by_cases hrepeated : first.repeatedBy s.table request.location s.traversal.current? = true
  · refine Tracks.get ?_
    simp only [hs.table, hs.traversal, if_pos hrepeated]
    exact note_tracks f request .repeated hs
  · refine Tracks.get ?_
    simp only [hs.table, hs.traversal, hs.evaluator, if_neg hrepeated]
    refine Tracks.report (.duplicate first request.location hname) hs (fun decision t t' ht => ?_)
      fun _ t => ⟨_, _, rfl⟩
    refine Tracks.bind (note_tracks f request (.duplicate decision) ht) fun _ _ u u' _ hu => ?_
    cases decision with
    | abort => exact Tracks.throw ⟨rfl, fun h => by rw [hname h]⟩ hu
    | proceed => exact Tracks.pure trivial hu

theorem markCommitted_tracks (hs : C.Matches s s') :
    C.Tracks Analysis.markCommitted Analysis.markCommitted Eq s s' := by
  refine ⟨?_, hs.evaluator, ?_, hs.placeholders, hs.table, hs.visits, hs.reporters⟩
  · rw [hs.traversal]
  · simp only [hs.traversal]

/-- The first one may have fewer levels left, if it may give up. -/
def Levels (C : Concord) (levels levels' : Nat) : Prop := levels' = levels ∨ C.gives ∧ levels ≤ levels'

theorem Levels.refl (levels : Nat) : C.Levels levels levels := .inl rfl

theorem Levels.pred {levels levels' : Nat} (h : C.Levels (levels + 1) (levels' + 1)) : C.Levels levels levels' :=
  h.imp Nat.succ.inj fun h => ⟨h.1, Nat.le_of_succ_le_succ h.2⟩

/-- Wherever a request is processed, the same becomes of it and of everything that it reveals. -/
theorem process_tracks {levels levels' : Nat} (hlevels : C.Levels levels levels') (request : Request)
    (hs : C.Matches s s') :
    C.Tracks (Analysis.process C.setup levels request) (Analysis.process C.setup' levels' request) (fun _ _ => True)
      s s' := by
  induction levels using Nat.strongRecOn generalizing levels' request s s' with
  | ind levels ih =>
    unfold Analysis.process
    refine Tracks.get ?_
    simp only [hs.evaluator, hs.accepted?]
    split
    · exact Tracks.fail (.refl _) (.refl _) hs
    · next f _ =>
      split
      · next first _ => exact again_tracks f first request hs
      · refine Tracks.bind (note_tracks f request .accepted hs) fun _ _ t t' _ ht => ?_
        cases levels with
        | zero =>
          -- Without a level left the first one fails, and where it must not give up the second one has none either.
          rcases hlevels with rfl | ⟨hgives, -⟩
          · rcases C.limits with hlimit | ⟨hgives, -⟩
            · have hname := fun h => C.resolve_eq h s.evaluator f
              simp only [hs.traversal, hlimit]
              exact Tracks.fail (.fatal _ _ fun h => by rw [hname h]) (.refl _) ht
            · exact Tracks.of_gives hgives ⟨_, _, rfl⟩
          · exact Tracks.of_gives hgives ⟨_, _, rfl⟩
        | succ levels =>
          obtain ⟨levels', rfl⟩ : ∃ n, levels' = n + 1 := by
            refine Nat.exists_eq_succ_of_ne_zero ?_
            rcases hlevels with rfl | ⟨-, hle⟩
            · exact Nat.succ_ne_zero levels
            · omega
          refine Tracks.inFrame (Tracks.bind (captureNew_tracks ⟨f, request⟩ (ht.enter f)) ?_)
          rintro ⟨r, requests⟩ _ u u' rfl hu
          simp only
          split
          · exact Tracks.pure trivial hu
          · refine Tracks.bind (markCommitted_tracks hu) ?_
            rintro _ _ v v' - hv
            refine Tracks.committed hv.evaluator (Tracks.forM (fun next _ w w' hw => ?_) (hv.commit r.effects))
            exact ih levels (Nat.lt_succ_self _) hlevels.pred next hw

/-- A queue is processed alike. -/
theorem drain_tracks (queue : List Request) (hs : C.Matches s s') :
    C.Tracks (Analysis.drain C.setup queue) (Analysis.drain C.setup' queue) (fun _ _ => True) s s' := by
  induction queue generalizing s s' with
  | nil => exact Tracks.pure trivial hs
  | cons request queue ih =>
    have hmodified : C.Tracks (modify fun s => { s with queue }) (modify fun s => { s with queue }) (fun _ _ => True) s s' :=
      Tracks.modified (hs.aside queue queue)
    refine Tracks.bind hmodified ?_
    rintro _ _ t t' - ht
    refine Tracks.get (Tracks.bind (process_tracks ?_ request ht) fun _ _ u u' _ hu => ih hu)
    rw [ht.traversal]
    exact C.limits.imp (fun h => by rw [h]) fun h => ⟨h.1, Nat.sub_le_sub_right h.2 _⟩

/-- Discovery ends alike if the queues are processed alike. -/
theorem discover_tracks (hdrain : C.Tracks (Analysis.drain C.setup s.queue) (Analysis.drain C.setup' s'.queue)
    (fun _ _ => True) s s') :
    C.Tracks (Analysis.discover C.setup) (Analysis.discover C.setup') (fun _ _ => True) s s' := by
  refine Tracks.get (Tracks.bind hdrain fun _ _ t t' _ ht => Tracks.get ?_)
  simp only [ht.traversal]
  split
  · exact Tracks.pure trivial ht
  · exact Tracks.fail (.refl _) (.refl _) ht

end Concord

end Independence
