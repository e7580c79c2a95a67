import Independence.Proofs.Analysis.Reporting
/-!
# Evaluators in place of each other

An analysis uses its evaluator through the interface alone. So where one evaluator does what another one does, in states of
its own, an analysis on the one ends as the same analysis on the other: with the same result or failure, the same table
and the same reports. The rules follow the way in which steps of the analysis are put together.
-/

namespace Independence

variable {m n : Type} [Evaluator m] [Evaluator n] {α β σ : Type}

/-- A translation of the states of one evaluator into those of another one, which no evaluation and no commit tells
apart. -/
structure Evaluator.Translation (m n : Type) [Evaluator m] [Evaluator n] where
  state : m → n
  undo : Evaluator.Undo m → Evaluator.Undo n
  signature? : ∀ s f, Evaluator.signature? (state s) f = Evaluator.signature? s f
  compositeRoot? : ∀ s o, Evaluator.compositeRoot? (state s) o = Evaluator.compositeRoot? s o
  evaluate : ∀ {σ : Type} (o : Observer σ) (call : Call) (w : σ) (s : m),
    Evaluator.evaluate o call (w, state s) = mapOutcome id (Prod.map id state) (Evaluator.evaluate o call (w, s))
  commit : ∀ e s, Evaluator.commit e (state s) = Prod.map state undo (Evaluator.commit e s)
  rollback : ∀ s u, Evaluator.rollback (state s) (undo u) = state (Evaluator.rollback s u)

namespace Evaluator.Translation

variable (h : Evaluator.Translation m n)

theorem candidate? (s : m) (v : Value) : Evaluator.candidate? (h.state s) v = Evaluator.candidate? s v := by
  cases v with
  | object o => exact h.compositeRoot? s o
  | _ => rfl

theorem resolve (names : Names) (s : m) (f : CallableId) : names.resolve (h.state s) f = names.resolve s f := by
  simp only [Names.resolve, h.signature?]

theorem withinAll (es : List Effects) {body : m → α × m} {body' : n → α × n}
    (hbody : ∀ s, body' (h.state s) = Prod.map id h.state (body s)) (s : m) :
    Evaluator.withinAll es body' (h.state s) = Prod.map id h.state (Evaluator.withinAll es body s) := by
  induction es generalizing s with
  | nil => exact hbody s
  | cons e es ih => simp only [Evaluator.withinAll, Evaluator.within, h.commit, ih, Prod.map, id_eq, h.rollback]

end Evaluator.Translation

/-- The session with the other evaluator. -/
def Session.translate (h : Evaluator.Translation m n) (s : Session m) : Session n :=
  { s with evaluator := h.state s.evaluator }

/-- The checker with the other evaluator. -/
def Checker.translate (h : Evaluator.Translation m n) (c : Checker m) : Checker n :=
  { c with evaluator := h.state c.evaluator }

namespace Analysis

/-- On the other evaluator the step `y` does what `x` does. -/
def Translates (h : Evaluator.Translation m n) (x : Analysis m α) (y : Analysis n α) : Prop :=
  ∀ s, y (s.translate h) = mapOutcome id (Session.translate h) (x s)

namespace Translates

variable {h : Evaluator.Translation m n}

/-! ## Rules -/

section Rules
variable {x : Analysis m α} {y : Analysis n α}

theorem pure (a : α) : Translates h (Pure.pure a) (Pure.pure a) := fun _ => rfl

theorem throw (e : Failure) : Translates h (MonadExcept.throw e : Analysis m α) (MonadExcept.throw e) := fun _ => rfl

theorem bind {k : α → Analysis m β} {l : α → Analysis n β} (hx : Translates h x y) (hk : ∀ a, Translates h (k a) (l a)) :
    Translates h (x >>= k) (y >>= l) := by
  intro s
  simp only [Bind.bind, EStateM.bind, hx s]
  cases x s with
  | ok a t => exact hk a t
  | error e t => rfl

theorem get {k : Session m → Analysis m β} {l : Session n → Analysis n β}
    (hk : ∀ s, Translates h (k s) (l (s.translate h))) : Translates h (MonadState.get >>= k) (MonadState.get >>= l) :=
  fun s => hk s s

theorem set (s : Session m) :
    Translates h (MonadStateOf.set s : Analysis m PUnit) (MonadStateOf.set (s.translate h)) := fun _ => rfl

theorem modify {f : Session m → Session m} {g : Session n → Session n} (hf : ∀ s, g (s.translate h) = (f s).translate h) :
    Translates h (modify f : Analysis m PUnit) (modify g) := fun s => congrArg (EStateM.Result.ok PUnit.unit) (hf s)

theorem report (d : Diagnostic) : Translates h (Analysis.report d) (Analysis.report d) := fun _ => rfl

theorem fail (d : Diagnostic) (e : Failure) : Translates h (Analysis.fail d e : Analysis m α) (Analysis.fail d e) :=
  bind (report d) fun _ => throw e

theorem forM {γ : Type} {f : γ → Analysis m PUnit} {g : γ → Analysis n PUnit} (hf : ∀ a, Translates h (f a) (g a))
    (as : List γ) : Translates h (as.forM f) (as.forM g) := by
  induction as with
  | nil => exact pure PUnit.unit
  | cons a as ih => exact bind (hf a) fun _ => ih

theorem mapM {γ : Type} {f : γ → Analysis m β} {g : γ → Analysis n β} (hf : ∀ a, Translates h (f a) (g a))
    (as : List γ) : Translates h (as.mapM f) (as.mapM g) := by
  induction as with
  | nil => exact pure []
  | cons a as ih =>
    rw [List.mapM_cons, List.mapM_cons]
    exact bind (hf a) fun b => bind ih fun bs => pure (b :: bs)

theorem inFrame (f : CallableId) (hx : Translates h x y) : Translates h (Analysis.inFrame f x) (Analysis.inFrame f y) := by
  intro s
  have hbody := hx { s with traversal := s.traversal.enter f }
  simp only [Session.translate] at hbody
  simp only [Analysis.inFrame, Session.translate, hbody]
  cases x { s with traversal := s.traversal.enter f } <;> rfl

theorem committed (e : Effects) (hx : Translates h x y) :
    Translates h (Analysis.committed e x) (Analysis.committed e y) := by
  intro s
  have hbody := hx { s with evaluator := (Evaluator.commit e s.evaluator).1 }
  simp only [Session.translate] at hbody
  simp only [Analysis.committed, Session.translate, h.commit, Prod.map, hbody]
  cases x { s with evaluator := (Evaluator.commit e s.evaluator).1 } <;>
    simp only [mapOutcome, h.rollback, id_eq, Session.translate]

end Rules

/-! ## Captures -/

theorem evaluateWatched (name : String) (call : Call) :
    Translates h (Analysis.evaluateWatched name call) (Analysis.evaluateWatched name call) := by
  intro s
  simp only [Analysis.evaluateWatched, Session.translate, h.evaluate]
  cases Evaluator.evaluate (captureObserver name) call (⟨s.reporter, s.traversal, false⟩, s.evaluator) <;> rfl

theorem effectsOf (f : CallableId) (name : String) (signature : Signature) (call : Call) :
    Translates h (Analysis.effectsOf f name signature call) (Analysis.effectsOf f name signature call) := by
  refine bind (evaluateWatched name call) fun outcome => ?_
  obtain ⟨e | e, escalated⟩ := outcome
  · cases e <;> cases escalated <;> first | exact throw _ | exact fail _ _
  · exact pure e

theorem capture (setup : Setup) (c : Candidate) : Translates h (Analysis.capture setup c) (Analysis.capture setup c) := by
  refine get fun s => ?_
  simp only [Session.translate, h.resolve, h.signature?]
  split
  · exact fail _ _
  · split
    · exact fail _ _
    · next signature _ =>
      split
      · exact fail _ _
      · next call placeholders _ =>
        exact bind (set { s with placeholders }) fun _ =>
          bind (effectsOf c.callable _ signature call) fun effects => pure _

/-! ## Discovery -/

theorem note (f : CallableId) (request : Request) (outcome : Outcome) :
    Translates h (Analysis.note f request outcome) (Analysis.note f request outcome) := modify fun _ => rfl

theorem again (setup : Setup) (f : CallableId) (first : Visit) (request : Request) :
    Translates h (Analysis.again setup f first request) (Analysis.again setup f first request) := by
  refine get fun s => ?_
  simp only [Session.translate, h.resolve]
  split
  · exact note f request _
  · refine bind (report _) fun decision => bind (note f request _) fun _ => ?_
    cases decision with
    | abort => exact throw _
    | proceed => exact pure _

theorem captureNew (setup : Setup) (c : Candidate) :
    Translates h (Analysis.captureNew setup c) (Analysis.captureNew setup c) := by
  refine bind (capture setup c) fun record => get fun s => ?_
  simp only [Session.translate, h.resolve]
  cases s.table.insert? record with
  | none => exact throw _
  | some table => exact bind (set { s with table, traversal := s.traversal.takePending.2 }) fun _ => pure _

theorem markCommitted : Translates h Analysis.markCommitted Analysis.markCommitted := fun _ => rfl

theorem process (setup : Setup) (levels : Nat) (request : Request) :
    Translates h (Analysis.process setup levels request) (Analysis.process setup levels request) := by
  induction levels using Nat.strongRecOn generalizing request with
  | ind levels ih =>
    unfold Analysis.process
    refine get fun s => ?_
    have haccepted : ∀ f, (s.translate h).accepted? f = s.accepted? f := fun _ => rfl
    simp only [haccepted]
    simp only [Session.translate, h.candidate?, h.resolve]
    split
    · exact fail _ _
    · next f _ =>
      split
      · next first _ => exact again setup f first request
      · refine bind (note f request .accepted) fun _ => ?_
        cases levels with
        | zero => exact fail _ _
        | succ levels =>
          refine inFrame f (bind (captureNew setup ⟨f, request⟩) ?_)
          rintro ⟨record, nested⟩
          simp only
          split
          · exact pure PUnit.unit
          · exact bind markCommitted fun _ =>
              committed record.effects (forM (fun next => ih levels (Nat.lt_succ_self _) next) nested)

theorem drain (setup : Setup) (queue : List Request) :
    Translates h (Analysis.drain setup queue) (Analysis.drain setup queue) := by
  induction queue with
  | nil => exact pure ()
  | cons request queue ih =>
    exact bind (modify fun _ => rfl) fun _ => get fun s => bind (process setup _ request) fun _ => ih

theorem discover (setup : Setup) : Translates h (Analysis.discover setup) (Analysis.discover setup) := by
  refine get fun s => bind (drain setup s.queue) fun _ => get fun t => ?_
  have htraversal : (t.translate h).traversal = t.traversal := rfl
  simp only [htraversal]
  split
  · exact pure ()
  · exact fail _ _

/-! ## Verification -/

theorem reportAbrupt (setup : Setup) (r : Record) :
    Translates h (Analysis.reportAbrupt setup r) (Analysis.reportAbrupt setup r) := by
  unfold Analysis.reportAbrupt
  split
  · refine get fun s => ?_
    simp only [Session.translate, h.resolve]
    exact bind (report _) fun _ => pure true
  · exact pure false
  · exact pure false

theorem checkCompletions (setup : Setup) :
    Translates h (Analysis.checkCompletions setup) (Analysis.checkCompletions setup) := by
  refine get fun s => bind (mapM (reportAbrupt setup) s.table.records) fun abrupt => ?_
  simp only
  split
  · exact throw _
  · exact pure PUnit.unit

theorem replay (setup : Setup) (r : Record) : Translates h (Analysis.replay setup r) (Analysis.replay setup r) := by
  refine get fun s => ?_
  simp only [Session.translate, h.resolve]
  cases s.placeholders.synthesize r.owner r.signature r.candidate.request.shape with
  | error p => exact throw _
  | ok made =>
    obtain ⟨call, placeholders⟩ := made
    have hwatch : ∀ t, watchReplay s.table r.owner call (h.state t) =
        Prod.map id h.state (watchReplay s.table r.owner call t) := by
      intro t
      simp only [watchReplay, h.evaluate]
      cases Evaluator.evaluate (Replay.observer s.table r.owner) call (Replay.start, t) <;> rfl
    simp only [h.withinAll _ hwatch, Prod.map, id_eq]
    exact bind (set _) fun _ => pure _

theorem replayAll (setup : Setup) : Translates h (Analysis.replayAll setup) (Analysis.replayAll setup) :=
  get fun s => mapM (replay setup) s.table.records

theorem verify (setup : Setup) : Translates h (Analysis.verify setup) (Analysis.verify setup) := by
  refine bind (checkCompletions setup) fun _ => bind (replayAll setup) fun observed => get fun s => ?_
  have hname : setup.names.resolve (s.translate h).evaluator = setup.names.resolve s.evaluator :=
    funext fun f => h.resolve setup.names s.evaluator f
  rw [hname]
  exact pure _

theorem reportConflicts (conflicts : List Conflict) :
    Translates h (Analysis.reportConflicts conflicts) (Analysis.reportConflicts conflicts) := by
  refine bind (forM (fun c => ?_) conflicts) fun _ => pure _
  exact bind (report c.diagnostic) fun _ => pure PUnit.unit

theorem analyse (setup : Setup) : Translates h (Analysis.analyse setup) (Analysis.analyse setup) := by
  refine bind (discover setup) fun _ => bind (verify setup) fun conflicts =>
    bind (reportConflicts conflicts) fun decision => ?_
  cases decision with
  | abort => exact throw _
  | proceed => exact pure ()

end Translates

end Analysis

namespace Checker

variable (h : Evaluator.Translation m n) (c : Checker m) (roots : List Request)

theorem analyse_translate : Analysis.analyse (c.translate h).setup ((c.translate h).session roots) =
    mapOutcome id (Session.translate h) (Analysis.analyse c.setup (c.session roots)) :=
  Analysis.Translates.analyse c.setup (c.session roots)

/-- A run on the other evaluator has the same result, and leaves what the first one leaves. -/
theorem run_translate : (c.translate h).run roots = Prod.map id (translate h) (c.run roots) := by
  simp only [run, analyse_translate]
  cases Analysis.analyse c.setup (c.session roots) <;> rfl

theorem finished_translate : (c.translate h).finished roots = (c.finished roots).translate h := by
  refine (congrArg finalState (analyse_translate h c roots)).trans ?_
  unfold finished
  cases Analysis.analyse c.setup (c.session roots) <;> rfl

end Checker

end Independence
