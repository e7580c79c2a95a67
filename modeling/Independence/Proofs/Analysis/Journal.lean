import Independence.Proofs.Analysis.Ancestry
import Independence.Proofs.Analysis.Following
import Independence.Proofs.Analysis.Translation
import Independence.Proofs.Evaluation.Ledger
/-!
# Journals

A journal is a program model with an account of every evaluation so far. It evaluates, commits and rolls back as the model
does, so an analysis of it is an analysis of the model, and when that has ended the accounts are known of all evaluations in
it: of captures and replays, also of those that failed. They follow each other without a gap, and the records of the table
are from different ones.
-/

namespace Independence

variable {σ α : Type}

/-- What is known of the objects of an evaluation: the next number before it and after it, its ledger, and what it created,
if it returned effects. -/
structure Account where
  first : Nat
  next : Nat
  ledger : Ledger
  created : Option ObjectSet

structure Journal where
  model : Model
  /-- The accounts so far, in order. -/
  accounts : List Account

/-- The account of an evaluation goes to the end. -/
def Journal.enter (j : Journal) (m : Model) (l : Ledger) (created : Option ObjectSet) : Journal :=
  ⟨m, j.accounts ++ [⟨j.model.nextObject, m.nextObject, l, created⟩]⟩

instance : Evaluator Journal where
  signature? j := j.model.signature?
  compositeRoot? j := j.model.compositeRoot?
  evaluate o call := fun (s, j) =>
    match Model.ledger o call ((s, .empty), j.model) with
    | .ok e ((s, l), m) => .ok e (s, j.enter m l (some e.created))
    | .error x ((s, l), m) => .error x (s, j.enter m l none)
  Undo := Heap.Undo
  commit e j :=
    let (model, undo) := Evaluator.commit e j.model
    ({ j with model }, undo)
  rollback j undo := { j with model := Evaluator.rollback j.model undo }

namespace Journal

/-- Without its accounts a journal is the model. -/
def toModel : Evaluator.Translation Journal Model where
  state := model
  undo := id
  signature? _ _ := rfl
  compositeRoot? _ _ := rfl
  evaluate o call s j := by
    refine (Model.evaluate_ledger o call s .empty j.model).trans ?_
    simp only [Evaluator.evaluate]
    cases Model.ledger o call ((s, .empty), j.model) <;> rfl
  commit _ _ := rfl
  rollback _ _ := rfl

end Journal

/-! ## Accounts in order -/

/-- The account is of numbers without a gap: they are handed out in order, they are what was created, and own targets stood
for no others. -/
structure Account.Clear (x : Account) : Prop where
  le_next : x.first ≤ x.next
  handedOut : x.ledger.handedOut = ObjectId.between x.first x.next
  used : ∀ a ∈ x.ledger.used, a ∈ x.ledger.handedOut
  created : ∀ objects, x.created = some objects → ∀ a, a ∈ objects ↔ a ∈ x.ledger.handedOut

/-- What was handed out, in order. -/
def Journal.handedOut (j : Journal) : List ObjectId := j.accounts.flatMap (·.ledger.handedOut)

/-- The accounts of a journal that was begun when `start` was the next number. -/
structure Journal.Regular (start : Nat) (j : Journal) : Prop where
  le_next : start ≤ j.model.nextObject
  handedOut : j.handedOut = ObjectId.between start j.model.nextObject
  clear : ∀ x ∈ j.accounts, x.Clear

/-- Since its accounts were `before` the journal was kept on, and the sets of `created`, in order, are what different
evaluations since then created. -/
structure Journal.Backs (start : Nat) (before : List Account) (j : Journal) (created : List ObjectSet) : Prop where
  regular : j.Regular start
  created : ∃ own, j.accounts = before ++ own ∧ created.Sublist (own.filterMap Account.created)

namespace Journal

variable {start : Nat} {before : List Account} {j k : Journal} {created later : List ObjectSet}

theorem regular_begin (m : Model) : (⟨m, []⟩ : Journal).Regular m.nextObject where
  le_next := Nat.le_refl _
  handedOut := (ObjectId.between_self _).symm
  clear x hx := by cases hx

/-- What hands out nothing keeps the journal regular. -/
theorem Regular.of_same (h : j.Regular start) (hnext : k.model.nextObject = j.model.nextObject)
    (haccounts : k.accounts = j.accounts) : k.Regular start where
  le_next := hnext ▸ h.le_next
  handedOut := by rw [hnext, ← h.handedOut, Journal.handedOut, haccounts, Journal.handedOut]
  clear := haccounts ▸ h.clear

theorem Regular.enter (h : j.Regular start) {m : Model} {l : Ledger} (hcovers : j.model.Covers m l)
    {created : Option ObjectSet} (hcreated : ∀ objects, created = some objects → ∀ a, a ∈ objects ↔ a ∈ l.handedOut) :
    (j.enter m l created).Regular start where
  le_next := Nat.le_trans h.le_next hcovers.le_next
  handedOut := by
    have hmore : (j.enter m l created).handedOut = j.handedOut ++ l.handedOut := by simp [Journal.handedOut, Journal.enter]
    rw [hmore, h.handedOut, hcovers.handedOut]
    exact ObjectId.between_append h.le_next hcovers.le_next
  clear x hx := by
    rcases List.mem_append.1 hx with hx | hx
    · exact h.clear x hx
    · rw [List.mem_singleton.1 hx]
      exact ⟨hcovers.le_next, hcovers.handedOut, hcovers.used, hcreated⟩

namespace Backs

theorem begin (hj : j.Regular start) : j.Backs start j.accounts [] := ⟨hj, [], by simp, List.nil_sublist _⟩

theorem of_same (h : j.Backs start before created) (hnext : k.model.nextObject = j.model.nextObject)
    (haccounts : k.accounts = j.accounts) : k.Backs start before created :=
  ⟨h.regular.of_same hnext haccounts, haccounts ▸ h.created⟩

theorem fewer (h : j.Backs start before created) (hfewer : later.Sublist created) : j.Backs start before later :=
  ⟨h.regular, h.created.imp fun _ ⟨hown, hcreated⟩ => ⟨hown, hfewer.trans hcreated⟩⟩

/-- A journal that is kept on backs what it backed before, and then what was created since. -/
theorem append (h : j.Backs start before created) (hlater : k.Backs start j.accounts later) :
    k.Backs start before (created ++ later) := by
  obtain ⟨own, hown, hcreated⟩ := h.created
  obtain ⟨more, hmore, hlaterCreated⟩ := hlater.created
  refine ⟨hlater.regular, own ++ more, by rw [hmore, hown, List.append_assoc], ?_⟩
  rw [List.filterMap_append]
  exact hcreated.append hlaterCreated

/-- One account more backs what it says was created. -/
theorem enter (h : j.Regular start) {m : Model} {l : Ledger} (hcovers : j.model.Covers m l) {objects : Option ObjectSet}
    (hcreated : ∀ a, objects = some a → ∀ o, o ∈ a ↔ o ∈ l.handedOut) :
    (j.enter m l objects).Backs start j.accounts objects.toList :=
  ⟨h.enter hcovers hcreated, _, rfl, by cases objects <;> simp⟩

end Backs

/-- An evaluation enters one account, with what it created if it returned. -/
theorem Regular.evaluate (h : j.Regular start) (o : Observer σ) (call : Call) (s : σ) :
    match Evaluator.evaluate o call (s, j) with
    | .ok e (_, k) => k.Backs start j.accounts [e.created]
    | .error _ (_, k) => k.Backs start j.accounts [] := by
  obtain ⟨hcovers, hcreated⟩ := Model.covers_ledger o call s j.model
  simp only [Evaluator.evaluate]
  cases hx : Model.ledger o call ((s, .empty), j.model) with
  | ok e t =>
    rw [hx] at hcovers
    refine Backs.enter h hcovers ?_
    rintro _ ⟨⟩
    exact hcreated e t hx
  | error e t =>
    rw [hx] at hcovers
    exact Backs.enter h hcovers nofun

namespace Backs

theorem evaluate (h : j.Backs start before created) (o : Observer σ) (call : Call) (s : σ) :
    (finalState (Evaluator.evaluate o call (s, j))).2.Backs start before created := by
  have hmore := h.regular.evaluate o call s
  rw [← List.append_nil created]
  cases he : Evaluator.evaluate o call (s, j) with
  | ok e t =>
    rw [he] at hmore
    exact h.append (hmore.fewer (List.nil_sublist _))
  | error e t =>
    rw [he] at hmore
    exact h.append hmore

/-- Effects that an evaluation returned may become a record. -/
theorem record (h : j.Backs start before created) {o : Observer σ} {call : Call} {s s' : σ} {e : Effects}
    (he : Evaluator.evaluate o call (s, j) = .ok e (s', k)) : k.Backs start before (created ++ [e.created]) := by
  have hmore := h.regular.evaluate o call s
  rw [he] at hmore
  exact h.append hmore

end Backs

end Journal

/-! ## Accounts of an analysis -/

/-- What the evaluations of the records created, in order. -/
def Table.created (t : Table) : List ObjectSet := t.records.map (·.effects.created)

/-- The journal backs the table. -/
def Session.Backed (start : Nat) (before : List Account) (s : Session Journal) : Prop :=
  s.evaluator.Backs start before s.table.created

/-- If the journal backed the table in `s`, it does so in `t`. -/
def Session.StaysBacked (start : Nat) (before : List Account) (s t : Session Journal) : Prop :=
  s.Backed start before → t.Backed start before

variable {start : Nat} {before : List Account} {setup : Setup} {s t : Session Journal}

instance : IsPreorder (Session Journal) (Session.StaysBacked start before) where
  refl _ h := h
  trans _ _ _ hst htu h := htu (hst h)

theorem Session.Undisturbed.staysBacked (h : s.Undisturbed t) : s.StaysBacked start before t := by
  intro hs
  unfold Backed
  rw [h.table]
  rcases h.evaluator with he | ⟨e, he⟩ | ⟨undo, he⟩ <;> rw [he] <;> exact Journal.Backs.of_same hs rfl rfl

namespace Analysis

/-! ### Captures -/

/-- A table with one more record that has these effects would be backed, too. -/
def Recordable (start : Nat) (before : List Account) (e : Effects) (s : Session Journal) : Prop :=
  s.evaluator.Backs start before (s.table.created ++ [e.created])

theorem Recordable.backed {e : Effects} (h : Recordable start before e s) : s.Backed start before :=
  h.fewer (List.sublist_append_left _ _)

theorem evaluateWatched_backed (name : String) (call : Call) (h : s.Backed start before) :
    (evaluateWatched name call).Ends s
      (fun outcome t => match outcome.1 with
        | .ok e => Recordable start before e t
        | .error _ => t.Backed start before) fun _ _ => False := by
  have hkept := Journal.Backs.evaluate h (captureObserver name) call ⟨s.reporter, s.traversal, false⟩
  simp only [Ends, evaluateWatched]
  cases he : Evaluator.evaluate (captureObserver name) call (⟨s.reporter, s.traversal, false⟩, s.evaluator) with
  | ok e t => exact Journal.Backs.record h he
  | error x t =>
    rw [he] at hkept
    exact hkept

theorem effectsOf_backed (f : CallableId) (name : String) (signature : Signature) (call : Call) (h : s.Backed start before) :
    (effectsOf f name signature call).Ends s (fun e t => Recordable start before e t) fun _ t => t.Backed start before := by
  refine Ends.bind_sure (evaluateWatched_backed name call h) ?_
  rintro ⟨e | e, escalated⟩ t ht
  · cases e <;> cases escalated <;> first | exact Ends.throw ht | exact Ends.fail fun _ => ht
  · exact Ends.pure ht

theorem capture_backed (c : Candidate) (h : s.Backed start before) :
    (capture setup c).Ends s (fun r t => Recordable start before r.effects t) fun _ t => t.Backed start before := by
  refine Ends.get ?_
  simp only
  split
  · exact Ends.fail fun _ => h
  · split
    · exact Ends.fail fun _ => h
    · next signature _ =>
      split
      · exact Ends.fail fun _ => h
      · next call placeholders _ =>
        refine Ends.set (Ends.bind (effectsOf_backed c.callable _ signature call ?_) fun e t ht => ?_)
        · exact h
        · exact Ends.pure ht

theorem captureNew_backed (c : Candidate) : Follows (Session.StaysBacked start before) (captureNew setup c) := by
  intro s
  refine Ends.of_imp fun h => Ends.bind (capture_backed c h) fun r t hrecord => Ends.get ?_
  split
  · exact Ends.throw hrecord.backed
  · next table hinsert =>
    refine Ends.set (Ends.pure ?_)
    simp only [Session.Backed, Table.created, Table.records_insert? hinsert, List.map_append]
    exact hrecord

/-! ### Replays -/

theorem withinAll_backs {body : Journal → α × Journal} {created : List ObjectSet}
    (hbody : ∀ j : Journal, j.Backs start before created → (body j).2.Backs start before created) (es : List Effects)
    {j : Journal} (hj : j.Backs start before created) :
    (Evaluator.withinAll es body j).2.Backs start before created := by
  induction es generalizing j with
  | nil => exact hbody j hj
  | cons e es ih =>
    have hcommitted : (Evaluator.commit e j).1.Backs start before created := hj.of_same rfl rfl
    exact (ih hcommitted).of_same rfl rfl

theorem replay_backed (r : Record) : Follows (Session.StaysBacked start before) (replay setup r) := by
  intro s
  refine Ends.of_imp fun h => Ends.get ?_
  simp only
  split
  · exact Ends.throw h
  · next call placeholders _ =>
    refine Ends.set (Ends.pure (withinAll_backs (fun j hj => ?_) _ h))
    have hkept := hj.evaluate (Replay.observer s.table r.owner) call .start
    unfold watchReplay
    cases he : Evaluator.evaluate (Replay.observer s.table r.owner) call (Replay.start, j) <;> rw [he] at hkept <;>
      exact hkept

/-! ### Runs -/

theorem report_backed (d : Diagnostic) : Follows (Session.StaysBacked start before) (report d) :=
  fun _ => Ends.report fun _ _ h => h

/-- If the journal backs the table, it still does when an analysis has ended. -/
theorem analyse_backed : Follows (Session.StaysBacked start before) (analyse setup) :=
  .analyse report_backed replay_backed
    (.discover Session.Undisturbed.staysBacked (fun _ => report_backed _) captureNew_backed)

end Analysis

end Independence
