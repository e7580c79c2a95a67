import Independence.Proofs.Analysis.Alike
import Independence.Proofs.Analysis.Displacement
import Independence.Proofs.Analysis.Telling
/-!
# Two analyses in lockstep

An analysis that begins in a session in which requests were processed already takes, step by step, the course that it
takes from nothing, and it ends in the corresponding session, or with the same failure. There is one exception: when a
callable is requested that was accepted before, it is a duplicate there and reported as such.
-/

namespace Independence

/-! ## Captures -/

section Captures
variable {m₀ : Model} {k s s' : Session Model} {opened : List Record}

open Session (Beside)

/-- The two reporters were told of the same, but of what the one of `k` was told before. -/
def Session.BothTold (k t t' : Session Model) : Prop := k.reporter.Beside t.reporter t'.reporter

/-- Two captures in parallel watch the same. -/
theorem parallel_captureObserver (name : String) (before : Reporter) (c : Nat) {m m' : Model} {n d : Nat}
    (hget : ∀ b : Binding, m'.get? (b.rename (.shift n d)) = m.get? b) :
    (captureObserver name).Parallel m m' n d (captureObserver name)
      (fun w w' => before.Beside w.reporter w'.reporter ∧ w'.traversal = w.traversal.moved c ∧ w'.escalated = w.escalated)
      fun _ => False where
  answer e w w' he h := by
    obtain ⟨hreporter, htraversal, hescalated⟩ := h
    cases e with
    | sideEffect e =>
      have hsame : e.rename (.shift n d) = e := by
        obtain ⟨kind, l⟩ := e
        cases kind with
        | assignedGlobal name => rfl
        | wroteProperty b =>
          have hb : b.rename (.shift n d) = b := congrArg (Binding.mk · b.key) he
          simp [SideEffect.rename, hb]
      obtain ⟨hanswer, hnext⟩ := hreporter.report (e.diagnostic name)
      simp only [Event.rename, hsame, captureObserver]
      exact ⟨hanswer, hnext, htraversal, by rw [hescalated, hanswer]⟩
    | register r =>
      have hsame : r.target.rename (.shift n d) = r.target := Value.rename_eq_self he
      simp only [Event.rename, hsame, captureObserver]
      exact ⟨trivial, hreporter, by rw [htraversal, Traversal.register_moved], hescalated⟩
    | _ => exact ⟨rfl, hreporter, htraversal, hescalated⟩
  read b _ _ := .inl (hget b)
  off _ _ h := h

namespace Analysis

variable {setup : Setup}

/-- Both report the same and fail. -/
theorem Alike.fail {α α' : Type} {d : Diagnostic} {e : Failure} {Q : α → Session Model → α' → Session Model → Prop}
    (h : k.BothTold s s') : Alike (Analysis.fail d e) (Analysis.fail d e) s s' Q k.BothTold :=
  ⟨rfl, (h.report d).2⟩

variable (hw : m₀.WellFormed) (hs : Discovering m₀ opened s.table s.evaluator) (hb : Beside m₀ k opened s s')
include hw hs hb

/-- The evaluation of a candidate takes the same course with new objects renamed. -/
theorem evaluateWatched_alike (name : String) {call call' : Call} (hcallee : call'.callee = call.callee)
    (hlocation : call'.location = call.location) {E : Session Model → Session Model → Prop} :
    Alike (evaluateWatched name call) (evaluateWatched name call') s s'
      (fun p t p' t' => p' = (p.1.map (Effects.rename (k.placed m₀)), p.2) ∧ Beside m₀ k opened t t') E := by
  have hfix : ∀ g ∈ s.evaluator.functions,
      g.body.AllObjects fun a => a.shift m₀.nextObject (k.ahead m₀) = a := fun g hg =>
    (hw.bodies g (hs.under.functions ▸ hg)).mono fun a ha => ObjectId.shift_of_lt ha
  have hparallel := parallel_captureObserver name k.reporter k.traversal.commits
    (Model.Under.get?_rename hw (hs.mentions hw) hs.under hb.under)
  obtain ⟨w', hw', heval⟩ := (Model.evaluate_shift hparallel (hb.under.file.trans hs.under.file.symm)
    (hb.under.functions.trans hs.under.functions.symm) hfix hs.under.le_next hb.objects call
    (s := ⟨s.reporter, s.traversal, false⟩) (t := ⟨s'.reporter, s'.traversal, false⟩)
    ⟨hb.reporter, hb.traversal, rfl⟩).resolve_left id
  have hunder := hb.under.evaluate (captureObserver name) call ⟨s'.reporter, s'.traversal, false⟩
  rw [heval] at hunder
  have he : Evaluator.evaluate (captureObserver name) call (⟨s.reporter, s.traversal, false⟩, s.evaluator) =
    Model.evaluate (captureObserver name) call (⟨s.reporter, s.traversal, false⟩, s.evaluator) := rfl
  have he' : Evaluator.evaluate (captureObserver name) call' (⟨s'.reporter, s'.traversal, false⟩, s'.evaluator) =
      Model.evaluate (captureObserver name) call (⟨s'.reporter, s'.traversal, false⟩, s'.evaluator) :=
    congrFun (Model.evaluate_congr (captureObserver name) hcallee hlocation) _
  simp only [Alike, evaluateWatched, he, he', heval]
  cases hx : Model.evaluate (captureObserver name) call (⟨s.reporter, s.traversal, false⟩, s.evaluator)
  all_goals
    rw [hx] at hw' hunder
    obtain ⟨hreporter, htraversal, hescalated⟩ := hw'
    refine ⟨by rw [hescalated]; rfl, hunder, rfl, htraversal, hb.visits, hb.records, hreporter, hb.apart⟩

theorem effectsOf_alike (f : CallableId) (name : String) (signature : Signature) {call call' : Call}
    (hcallee : call'.callee = call.callee) (hlocation : call'.location = call.location) :
    Alike (effectsOf f name signature call) (effectsOf f name signature call') s s'
      (fun e t e' t' => e' = e.rename (k.placed m₀) ∧ Beside m₀ k opened t t') k.BothTold := by
  refine Alike.bind (evaluateWatched_alike hw hs hb name hcallee hlocation) ?_
  rintro ⟨outcome, escalated⟩ t _ t' ⟨rfl, ht⟩
  cases outcome with
  | ok e => exact Alike.pure ⟨rfl, ht⟩
  | error e =>
    have hfail : ∀ (d : Diagnostic) (x : Failure), Alike (Analysis.fail d x : Analysis Model Effects)
        (Analysis.fail d x : Analysis Model Effects) t t'
        (fun e u e' u' => e' = e.rename (k.placed m₀) ∧ Beside m₀ k opened u u') k.BothTold :=
      fun d x => Alike.fail ht.reporter
    cases e with
    | aborted =>
      cases escalated with
      | true => exact Alike.throw ht.reporter
      | false => exact hfail _ _
    | _ => exact hfail _ _

theorem capture_alike (hk : k.Accounted) (c : Candidate) (hf : ¬ Accepted k.visits c.callable) :
    Alike (capture setup c) (capture setup c) s s'
      (fun r t r' t' => r' = k.place m₀ r ∧ Beside m₀ k opened t t') k.BothTold := by
  have hfunctions := hb.under.functions.trans hs.under.functions.symm
  refine Alike.get ?_
  simp only [setup.names.resolve_congr hfunctions, Evaluator.signature?_congr hfunctions, hb.contains hk hf]
  split
  · exact Alike.fail hb.reporter
  · split
    · exact Alike.fail hb.reporter
    · next signature _ =>
      cases hsyn : s.placeholders.synthesize c.callable signature c.request.shape with
      | error p =>
        simp only [Placeholders.synthesize_of_error hsyn s'.placeholders]
        exact Alike.fail hb.reporter
      | ok result =>
        -- The calls differ in the placeholders only.
        obtain ⟨call, p⟩ := result
        obtain ⟨⟨names, hnames⟩, hcallee, hlocation⟩ := Placeholders.of_synthesize hsyn
        obtain ⟨call', p', hsyn', hcallee', hlocation'⟩ :=
          Placeholders.synthesize_of_simple hnames s'.placeholders c.callable c.request.shape
        simp only [hsyn']
        have hb' : Beside m₀ k opened { s with placeholders := p } { s' with placeholders := p' } :=
          hb.of_eq rfl rfl rfl rfl rfl rfl rfl rfl hb.reporter
        have heffects := effectsOf_alike hw (by exact hs) hb' c.callable (setup.names.resolve s.evaluator c.callable)
          signature (hcallee'.trans hcallee.symm) (hlocation'.trans hlocation.symm)
        refine Alike.set (Alike.bind heffects ?_)
        rintro e t _ t' ⟨rfl, ht⟩
        refine Alike.pure ⟨?_, ht⟩
        rw [hb.traversal, Traversal.parent?_moved, Traversal.baseline_moved]
        rfl

/-- A record of the one and the corresponding record of the other go to the ends of the tables. -/
theorem captureNew_alike (hk : k.Accounted) (c : Candidate) (hf : ¬ Accepted k.visits c.callable) :
    Alike (captureNew setup c) (captureNew setup c) s s'
      (fun p t p' t' => p' = (k.place m₀ p.1, p.2) ∧ Beside m₀ k opened t t') k.BothTold := by
  refine Alike.bind ((capture_alike hw hs hb hk c hf).and_left (capture_ends setup c s)) ?_
  rintro r t _ t' ⟨⟨hkept, hc, -, -, -, hnew, -⟩, rfl, ht⟩
  have howner : r.owner ∉ t.table.owners := by
    rw [hkept.table, Record.owner, hc]
    exact hnew
  have hcontains : t'.table.contains r.owner = t.table.contains r.owner := by
    refine ht.contains hk ?_
    rw [Record.owner, hc]
    exact hf
  have howner' : (k.place m₀ r).owner ∉ t'.table.owners := by
    rw [← Table.contains_iff, show t'.table.contains (k.place m₀ r).owner = _ from hcontains, Table.contains_iff]
    exact howner
  obtain ⟨table, hinsert⟩ := Table.exists_insert? howner
  obtain ⟨table', hinsert'⟩ := Table.exists_insert? howner'
  have hpending : t'.traversal.pending = t.traversal.pending := by
    rw [ht.traversal]
    rfl
  refine Alike.get ?_
  simp only [hinsert, hinsert']
  refine Alike.set (Alike.pure ⟨?_, ht.gains hinsert hinsert'⟩)
  simp [Traversal.takePending, hpending]

end Analysis

end Captures

/-! ## Requests -/

section Requests
variable {m₀ : Model} {k s s' t t' : Session Model} {opened : List Record} {frames : List Frame} {setup : Setup}

open Session (Beside)

namespace Analysis

theorem report_alike (hb : Beside m₀ k opened s s') (d : Diagnostic) {E : Session Model → Session Model → Prop} :
    Alike (report d) (report d) s s' (fun a t a' t' => a' = a ∧ Beside m₀ k opened t t') E := by
  obtain ⟨hanswer, hnext⟩ := hb.reporter.report d
  exact ⟨hanswer, hb.of_eq rfl rfl rfl rfl rfl rfl rfl rfl hnext⟩

theorem note_alike (hb : Beside m₀ k opened s s') (f : CallableId) (request : Request) {outcome : Outcome}
    (hf : outcome = .accepted → ¬ Accepted k.visits f) {E : Session Model → Session Model → Prop} :
    Alike (note f request outcome) (note f request outcome) s s' (fun _ t _ t' => Beside m₀ k opened t t') E := by
  have hsame := hb.noted (v := ⟨f, request.location, s.traversal.candidates, outcome⟩) hf
  refine Alike.modified ?_
  rw [hb.traversal, Traversal.candidates_moved]
  rw [hb.traversal] at hsame
  exact hsame

/-- A request for a callable that both have accepted. -/
theorem again_alike (hk : k.Accounted) (hs : s.Accounted) (hb : Beside m₀ k opened s s') (f : CallableId)
    {first : Visit} (hfirst : first ∈ s.visits) (request : Request)
    (hname : setup.names.resolve s'.evaluator = setup.names.resolve s.evaluator) :
    Alike (again setup f first request) (again setup f first request) s s' (fun _ t _ t' => Beside m₀ k opened t t')
      k.BothTold := by
  have hnoted : ∀ {outcome : Outcome} {t t' : Session Model}, outcome ≠ .accepted → Beside m₀ k opened t t' →
      Alike (note f request outcome) (note f request outcome) t t' (fun _ u _ u' => Beside m₀ k opened u u')
        k.BothTold := fun h ht => note_alike ht f request (absurd · h)
  refine Alike.get ?_
  simp only [hb.repeatedBy hk hs hfirst, hname]
  split
  · exact hnoted (by simp) hb
  · refine Alike.bind (report_alike hb _) ?_
    rintro _ t decision t' ⟨rfl, ht⟩
    refine Alike.bind (hnoted (by simp) ht) fun _ u _ u' hu => ?_
    cases decision with
    | abort => exact Alike.throw hu.reporter
    | proceed => exact Alike.pure hu

/-- A duplicate that is not the accepted request seen again is reported. -/
theorem again_told (f : CallableId) {first : Visit} {request : Request}
    (h : first.repeatedBy s.table request.location s.traversal.current? = false) :
    (again setup f first request).Ends s (fun _ t => t.reporter.Told .doubleOptimization)
      fun _ t => t.reporter.Told .doubleOptimization := by
  refine Ends.get ?_
  simp only [h, Bool.false_eq_true, if_false]
  refine Ends.bind (Q := fun _ t => t.reporter.Told .doubleOptimization) (Ends.reported ?_) fun decision t ht => ?_
  · exact code_duplicateDiagnostic _ _ _ ▸ Reporter.told_report s.reporter _
  · refine Ends.bind (Q := fun _ u => u.reporter.Told .doubleOptimization) (Ends.modified ht) fun _ u hu => ?_
    cases decision with
    | abort => exact Ends.throw hu
    | proceed => exact Ends.pure hu

/-! ## Where they part -/

/-- A callable was accepted in the one that had been accepted in `k`, and the other one reported a duplicate. -/
def Parted (k t t' : Session Model) : Prop :=
  (∃ f, Accepted t.visits f ∧ Accepted k.visits f) ∧ t'.reporter.Told .doubleOptimization

theorem Parted.later (h : Parted k s s') (ht : s.Extends t) (ht' : Reports s' t') : Parted k t t' := by
  obtain ⟨⟨f, hf, hk⟩, htold⟩ := h
  exact ⟨⟨f, ht.accepted hf, hk⟩, ht'.told _ htold⟩

/-- The two steps part somewhere, or they end alike. -/
def Together (k : Session Model) {α α' : Type} (x : Analysis Model α) (x' : Analysis Model α') (s s' : Session Model)
    (Q : α → Session Model → α' → Session Model → Prop) : Prop :=
  Parted k (finalState (x s)) (finalState (x' s')) ∨ Alike x x' s s' Q k.BothTold

namespace Together

variable {α α' β β' : Type} {x : Analysis Model α} {x' : Analysis Model α'}
  {Q : α → Session Model → α' → Session Model → Prop}

theorem get {y : Session Model → Analysis Model β} {y' : Session Model → Analysis Model β'}
    {R : β → Session Model → β' → Session Model → Prop} (h : Together k (y s) (y' s') s s' R) :
    Together k (MonadState.get >>= y) (MonadState.get >>= y') s s' R := h

/-- First parts that end alike, and then second parts that are together. -/
theorem bind {y : α → Analysis Model β} {y' : α' → Analysis Model β'} {R : β → Session Model → β' → Session Model → Prop}
    (h : Alike x x' s s' Q k.BothTold) (hy : ∀ a t a' t', Q a t a' t' → Together k (y a) (y' a') t t' R) :
    Together k (x >>= y) (x' >>= y') s s' R := by
  simp only [Together, Alike, Bind.bind, EStateM.bind]
  cases hx : x s with
  | ok a t =>
    obtain ⟨a', t', hx', hq⟩ := h.of_ok hx
    rw [hx']
    exact hy a t a' t' hq
  | error e t =>
    obtain ⟨t', hx', he⟩ := h.of_error hx
    rw [hx']
    exact .inr ⟨rfl, he⟩

/-- Two lists of steps that only add and report. They are together if each step is, from where the steps before it
ended alike. -/
theorem forM {I : Session Model → Session Model → Prop} {f : α → Analysis Model PUnit} {as : List α}
    (hf : ∀ a, Follows Session.Extends (f a)) (hf' : ∀ a, Follows Reports (f a))
    (h : ∀ a ∈ as, ∀ t t', I t t' → Together k (f a) (f a) t t' fun _ u _ u' => I u u') (hs : I s s') :
    Together k (as.forM f) (as.forM f) s s' fun _ t _ t' => I t t' := by
  induction as generalizing s s' with
  | nil => exact .inr hs
  | cons a as ih =>
    rcases h a List.mem_cons_self s s' hs with hparted | halike
    · left
      exact hparted.later (Follows.final_bind (fun _ => Follows.forM (T := Session.Extends) hf as) s)
        (Follows.final_bind (fun _ => Follows.forM (T := Reports) hf' as) s')
    · exact Together.bind halike fun _ t _ t' ht => ih (fun b hb => h b (List.mem_cons_of_mem a hb)) ht

theorem inFrame {f : CallableId}
    (h : Together k x x' (s.enter f) (s'.enter f) fun a t a' t' => Q a t.leave a' t'.leave) :
    Together k (Analysis.inFrame f x) (Analysis.inFrame f x') s s' Q := by
  refine h.imp (fun hparted => ?_) fun halike => Alike.inFrame halike
  simp only [Session.enter] at hparted
  simp only [Analysis.inFrame]
  cases hx : x { s with traversal := s.traversal.enter f } <;>
    cases hx' : x' { s' with traversal := s'.traversal.enter f } <;> rw [hx, hx'] at hparted <;> exact hparted

theorem committed {e e' : Effects}
    (h : Together k x x' { s with evaluator := (Evaluator.commit e s.evaluator).1 }
      { s' with evaluator := (Evaluator.commit e' s'.evaluator).1 }
      fun a t a' t' =>
        Q a { t with evaluator := Evaluator.rollback t.evaluator (Evaluator.commit e s.evaluator).2 } a'
          { t' with evaluator := Evaluator.rollback t'.evaluator (Evaluator.commit e' s'.evaluator).2 }) :
    Together k (Analysis.committed e x) (Analysis.committed e' x') s s' Q := by
  refine h.imp (fun hparted => ?_) fun halike => Alike.committed halike
  simp only [Analysis.committed]
  cases hx : x { s with evaluator := (Evaluator.commit e s.evaluator).1 } <;>
    cases hx' : x' { s' with evaluator := (Evaluator.commit e' s'.evaluator).1 } <;>
    rw [hx, hx'] at hparted <;> exact hparted

/-- What is known of the first step alone is known besides. -/
theorem and_left {Q₁ : α → Session Model → Prop} {E₁ : Failure → Session Model → Prop} (h : Together k x x' s s' Q)
    (h₁ : x.Ends s Q₁ E₁) : Together k x x' s s' fun a t a' t' => Q₁ a t ∧ Q a t a' t' :=
  h.imp_right (·.and_left h₁)

theorem mono {Q' : α → Session Model → α' → Session Model → Prop} (h : Together k x x' s s' Q)
    (hQ : ∀ a t a' t', Q a t a' t' → Q' a t a' t') : Together k x x' s s' Q' :=
  h.imp_right (·.mono hQ fun _ _ h => h)

end Together

/-! ## One request -/

/-- Requests are processed alike with so many more frames, unless they reveal a callable that had been accepted in `k`. -/
def Lockstep (m₀ : Model) (k : Session Model) (setup : Setup) (levels : Nat) : Prop :=
  ∀ ⦃opened : List Record⦄ ⦃frames : List Frame⦄ ⦃s s' : Session Model⦄ (request : Request), Encloses frames opened →
    Amid m₀ opened frames s → s.Accounted → Beside m₀ k opened s s' →
      Together k (process setup levels request) (process setup levels request) s s' fun _ t _ t' => Beside m₀ k opened t t'

/-- What a candidate registered is processed alike under the commit of its effects. -/
theorem Lockstep.nested {levels : Nat} (h : Lockstep m₀ k setup levels) (hw : m₀.WellFormed) {top : Frame} {r : Record}
    (htop : top.candidate = r.owner) (hget : t.table.get? r.owner = some r)
    (hp : r.parent = opened.head?.map Record.owner) (ht : Amid m₀ opened (top :: frames) t)
    (ha : (t.commit r.effects).Accounted) (hb : Beside m₀ k opened t t') (requests : List Request) :
    Together k (requests.forM (process setup levels)) (requests.forM (process setup levels)) (t.commit r.effects)
      (t'.commit (k.place m₀ r).effects)
      fun _ u _ u' => Beside m₀ k opened (t.unwind r.effects u) (t'.unwind (k.place m₀ r).effects u') := by
  refine (Together.forM (k := k) (f := process setup levels) (process_follows setup levels)
    (process_reports setup levels)
    (I := fun u u' => (Amid m₀ (r :: opened) ({ top with baseline := some ⟨t.traversal.commits + 1⟩ } :: frames) u ∧
      u.Accounted) ∧ Beside m₀ k (r :: opened) u u') ?_ ⟨⟨ht.commit hget hp, ha⟩, hb.commit r⟩).mono
    fun _ _ _ _ hu => hb.unwind hu.2
  rintro request - u u' ⟨⟨hu, hua⟩, hub⟩
  have hencloses : Encloses ({ top with baseline := some ⟨t.traversal.commits + 1⟩ } :: frames) (r :: opened) := by
    simp [Encloses, htop]
  refine ((h request hencloses hu hua hub).and_left
    ((process_ends hw levels request hencloses hu).and (process_accounts setup levels request hua))).mono ?_
  rintro _ v _ v' ⟨⟨hv, hva, -⟩, hvb⟩
  exact ⟨⟨hv, hva⟩, hvb⟩

/-- A candidate is captured alike, with everything that it registers. -/
theorem Lockstep.entered {levels : Nat} (h : Lockstep m₀ k setup levels) (hw : m₀.WellFormed) (hk : k.Accounted)
    (request : Request) (hf : Encloses frames opened) {f : CallableId} (hs : Amid m₀ opened frames (s.accept f request))
    (ha : s.Accounted) (hnew : ¬ Accepted k.visits f) (hb : Beside m₀ k opened (s.accept f request) s') :
    Together k
      (inFrame f do
        let (record, nested) ← captureNew setup ⟨f, request⟩
        unless nested.isEmpty do
          let _ ← markCommitted
          committed record.effects (nested.forM (process setup levels)))
      (inFrame f do
        let (record, nested) ← captureNew setup ⟨f, request⟩
        unless nested.isEmpty do
          let _ ← markCommitted
          committed record.effects (nested.forM (process setup levels)))
      (s.accept f request) s' fun _ t _ t' => Beside m₀ k opened t t' := by
  have henter := hs.enter f
  refine Together.inFrame (Together.bind ((captureNew_alike hw henter.discovering (hb.enter f) hk ⟨f, request⟩
    hnew).and_left ((captureNew_ends setup ⟨f, request⟩ _).mono (fun _ _ h => h.1) fun _ _ h => h)) ?_)
  rintro ⟨r, requests⟩ t _ t' ⟨hgains, rfl, ht⟩
  have hfenter : Encloses (⟨f, none, (s.accept f request).traversal.pending⟩ :: frames) opened := hf
  obtain ⟨hamid, hget, hp⟩ := henter.gains hw hfenter hgains
  have htop : f = r.owner := by rw [Record.owner, hgains.candidate]
  simp only
  split
  · exact .inr (Alike.pure ht.leave)
  · refine Together.bind (Q := fun _ v _ v' => v = { t with traversal := t.traversal.commit.2 } ∧
      v' = { t' with traversal := t'.traversal.commit.2 }) ⟨rfl, rfl⟩ ?_
    rintro _ _ _ _ ⟨rfl, rfl⟩
    exact Together.committed (h.nested hw htop hget hp hamid (ha.captured hgains).2 ht requests)

/-- Where a request is for a callable that was accepted in `k` only, the one accepts it, and for the other one it is a
duplicate. -/
theorem process_parted (setup : Setup) (levels : Nat) {request : Request} (hk : k.Accounted) (hs : s.Accounted)
    (hb : Beside m₀ k opened s s') {f : CallableId} (hc : Evaluator.candidate? s.evaluator request.target = some f)
    (hc' : Evaluator.candidate? s'.evaluator request.target = some f) {first : Visit}
    (hfirst : s'.accepted? f = some first) (hbefore : k.accepted? f = some first) :
    Parted k (finalState (process setup levels request s)) (finalState (process setup levels request s')) := by
  refine ⟨⟨f, (process_extends setup levels request s).final.2 f hc, Session.accepted?_some hbefore⟩, ?_⟩
  refine Ends.final (P := fun t => t.reporter.Told .doubleOptimization) ?_
  unfold process
  refine Ends.get ?_
  simp only [hc', hfirst]
  exact again_told f (hb.not_repeatedBy hk hs (List.mem_of_find?_eq_some hbefore) _)

/-- Wherever a request is processed, the same becomes of it, unless it reveals a callable that had been accepted
before. -/
theorem process_together (setup : Setup) (hw : m₀.WellFormed) (hk : k.Accounted) (levels : Nat) :
    Lockstep m₀ k setup levels := by
  induction levels using Nat.strongRecOn with
  | ind levels ih =>
    intro opened frames s s' request hf hs ha hb
    have hfunctions := hb.under.functions.trans hs.discovering.under.functions.symm
    have hcandidate : Evaluator.candidate? s'.evaluator request.target = Evaluator.candidate? s.evaluator request.target :=
      congrFun (Evaluator.candidate?_congr (hb.under.roots.trans hs.discovering.under.roots.symm)) _
    cases hc : Evaluator.candidate? s.evaluator request.target with
    | none =>
      right
      unfold process
      refine Alike.get ?_
      simp only [hcandidate, hc]
      exact Alike.fail hb.reporter
    | some f =>
      cases hfirst : s.accepted? f with
      | some first =>
        right
        unfold process
        refine Alike.get ?_
        simp only [hcandidate, hc, hfirst, hb.accepted?_some hfirst]
        exact again_alike hk ha hb f (List.mem_of_find?_eq_some hfirst) request (setup.names.resolve_congr hfunctions)
      | none =>
        have hfirst' := hb.accepted?_none hfirst
        cases hbefore : k.accepted? f with
        | some first =>
          exact .inl (process_parted setup levels hk ha hb hc (hcandidate.trans hc) (hfirst'.trans hbefore) hbefore)
        | none =>
          have hnew : ¬ Accepted k.visits f := Session.accepted?_eq_none_iff.1 hbefore
          unfold process
          refine Together.get ?_
          simp only [hcandidate, hc, hfirst, hfirst', hbefore]
          have hnote : (note f request .accepted).Ends s (fun _ t => t = s.accept f request) fun _ _ => False :=
            Ends.modified rfl
          refine Together.bind ((note_alike hb f request fun _ => hnew).and_left hnote) ?_
          rintro _ _ _ t' ⟨rfl, ht'⟩
          cases levels with
          | zero =>
            simp only [setup.names.resolve_congr hfunctions, hb.traversal, Traversal.depth_moved]
            exact .inr (Alike.fail ht'.reporter)
          | succ levels =>
            exact (ih levels (Nat.lt_succ_self _)).entered hw hk request hf (hs.aside rfl rfl rfl) ha hnew ht'

/-! ## The queue -/

theorem drain_cons (setup : Setup) (request : Request) (queue : List Request) (s : Session Model) :
    drain setup (request :: queue) s =
      match process setup (setup.maxNesting - s.traversal.depth) request { s with queue } with
      | .ok _ t => drain setup queue t
      | .error x t => .error x t := by
  change EStateM.bind (process setup _ request) (fun _ => drain setup queue) { s with queue } = _
  rw [EStateM.bind]
  cases process setup (setup.maxNesting - s.traversal.depth) request { s with queue } <;> rfl

/-- Where nobody had been accepted in `k`, a queue is processed alike, also with further requests behind it. -/
theorem drain_alike (setup : Setup) (hw : m₀.WellFormed) (hk : k.Accounted) (hempty : k.visits = [])
    (queue behind : List Request) (hs : Amid m₀ [] [] s) (ha : s.Accounted) (hb : Beside m₀ k [] s s') :
    (∀ t, drain setup queue s = .ok () t →
      ∃ t', Beside m₀ k [] t t' ∧ drain setup (queue ++ behind) s' = drain setup behind t') ∧
    ∀ x t, drain setup queue s = .error x t →
      ∃ t', drain setup (queue ++ behind) s' = .error x t' ∧ k.BothTold t t' := by
  induction queue generalizing s s' with
  | nil =>
    refine ⟨fun t ht => ?_, fun x t ht => by cases ht⟩
    cases ht
    exact ⟨s', hb, rfl⟩
  | cons request queue ih =>
    have hdepth : s'.traversal.depth = s.traversal.depth := by rw [hb.traversal, Traversal.depth_moved]
    have hs₁ : Amid m₀ [] [] { s with queue } := hs.aside rfl rfl rfl
    have ha₁ : Session.Accounted { s with queue } := ha.reframed rfl rfl (List.Subset.refl _)
    have hb₁ : Beside m₀ k [] { s with queue } { s' with queue := queue ++ behind } :=
      hb.of_eq rfl rfl rfl rfl rfl rfl rfl rfl hb.reporter
    have hencloses : Encloses [] [] := rfl
    have halike := (process_together setup hw hk (setup.maxNesting - s.traversal.depth) request hencloses hs₁ ha₁
      hb₁).resolve_left <| by
        rintro ⟨⟨f, -, v, hv, -⟩, -⟩
        rw [hempty] at hv
        cases hv
    have hnext := (process_ends hw (setup.maxNesting - s.traversal.depth) request hencloses hs₁).and
      (process_accounts setup (setup.maxNesting - s.traversal.depth) request ha₁)
    rw [List.cons_append]
    simp only [drain_cons, hdepth]
    cases hx : process setup (setup.maxNesting - s.traversal.depth) request { s with queue } with
    | ok _ t =>
      obtain ⟨_, t', hx', ht⟩ := halike.of_ok hx
      obtain ⟨hamid, haccounted, -⟩ := hnext.of_ok hx
      rw [hx']
      exact ih hamid haccounted ht
    | error x t =>
      obtain ⟨t', hx', htold⟩ := halike.of_error hx
      rw [hx']
      refine ⟨fun u hu => (by cases hu), fun y u hu => ?_⟩
      cases hu
      exact ⟨t', rfl, htold⟩

end Analysis

end Requests

end Independence
