import Independence.Proofs.Evaluation.Recording
/-!
# Ledgers

A ledger of an evaluation has, in order, each object that it hands out, and each object that one of its own targets stands
for. To keep a ledger changes nothing about an evaluation, on any exit. What is handed out are the numbers from the one at
the start to the one at the end, without a gap; no other object is created, and none is meant by an own target.
-/

namespace Independence

/-! ## Numbers in a row -/

/-- The objects numbered from `first` on, up to `next`. -/
def ObjectId.between (first next : Nat) : List ObjectId := (List.range' first (next - first)).map ObjectId.mk

namespace ObjectId

@[simp] theorem mem_between {first next : Nat} {a : ObjectId} : a ∈ between first next ↔ first ≤ a.index ∧ a.index < next := by
  simp only [between, List.mem_map, List.mem_range'_1]
  constructor
  · rintro ⟨i, hi, rfl⟩
    simp only
    omega
  · intro h
    exact ⟨a.index, by omega, rfl⟩

@[simp] theorem between_self (n : Nat) : between n n = [] := by simp [between]

theorem between_append {k m n : Nat} (hkm : k ≤ m) (hmn : m ≤ n) : between k m ++ between m n = between k n := by
  have hlength : n - k = (m - k) + (n - m) := by omega
  have hmiddle : k + (m - k) = m := by omega
  rw [between, between, between, hlength, ← List.range'_append_1, List.map_append, hmiddle]

theorem between_succ {m n : Nat} (h : m ≤ n) : between m (n + 1) = between m n ++ [⟨n⟩] := by
  rw [← between_append h (Nat.le_succ n), between, between]
  simp

/-- They are in ascending order. -/
theorem pairwise_between (first next : Nat) : (between first next).Pairwise (·.index < ·.index) := by
  rw [between, List.pairwise_map]
  exact List.pairwise_lt_range'

end ObjectId

variable {σ α β : Type} {m : Model} {o : Observer σ} {n : Nat}

/-! ## Evaluation with a ledger -/

/-- The objects that an evaluation handed out, and those for which its own targets stood, in order. -/
structure Ledger where
  handedOut : List ObjectId
  used : List ObjectId

def Ledger.empty : Ledger := ⟨[], []⟩

/-- Answers as `o` does and leaves the ledger alone. -/
def Observer.withLedger (o : Observer σ) : Observer (σ × Ledger) where
  answer e s :=
    let (decision, t) := o.answer e s.1
    (decision, t, s.2)

/-- The target of an operation. -/
def Op.target? : Op → Option Target
  | .write target _ _ _ | .read target _ _ | .enumerate target _ => some target
  | .allocate | .call _ _ | .register _ _ _ | .assignGlobal _ _ | .throw _ | .mayThrow _ | .return _ => none

/-- The object that an own target stands for, given what the running function allocated. -/
def Target.own? (locals : Array ObjectId) : Target → Option ObjectId
  | .object _ => none
  | .allocated n => locals[n]?

namespace Ledger

/-- Changes the ledger to what `f` makes of the run. -/
def keep (f : Run (σ × Ledger) → Ledger) : Eval (σ × Ledger) Unit :=
  modify fun r => { r with observer := (r.observer.1, f r) }

/-- Notes the object of an own target. -/
def noteUse (target : Option Target) : Eval (σ × Ledger) Unit := keep fun r =>
  { r.observer.2 with used := r.observer.2.used ++ (target.bind (·.own? r.locals)).toList }

/-- Notes the object that an allocation just gave to the running function. -/
def noteNew (op : Op) : Eval (σ × Ledger) Unit := keep fun r =>
  match op with
  | .allocate => { r.observer.2 with handedOut := r.observer.2.handedOut ++ r.locals.back?.toList }
  | _ => r.observer.2

end Ledger

open Ledger (keep noteUse noteNew)

def Op.ledger (m : Model) (o : Observer σ) (invoke : CallableId → Location → Eval (σ × Ledger) Flow) (op : Op) :
    Eval (σ × Ledger) Flow := do
  noteUse op.target?
  let flow ← op.run m o.withLedger invoke
  noteNew op
  return flow

/-- Runs a body as `Body.run` does and keeps the ledger. -/
def Body.ledger (m : Model) (o : Observer σ) (invoke : CallableId → Location → Eval (σ × Ledger) Flow) :
    Body → Eval (σ × Ledger) Flow
  | .done => pure .next
  | .op first rest => Flow.andThen (first.ledger m o invoke) (rest.ledger m o invoke)
  | .loop times block rest =>
    Flow.andThen (Flow.iterate (block.ledger m o invoke) times) (rest.ledger m o invoke)
  | .ifEquals target key value span block rest => do
    noteUse (some target)
    if ← target.holds m o.withLedger key value span then
      Flow.andThen (block.ledger m o invoke) (rest.ledger m o invoke)
    else
      rest.ledger m o invoke

def invokeLedger (m : Model) (o : Observer σ) : Nat → CallableId → Location → Eval (σ × Ledger) Flow
  | 0, _, location => throw (.callTooDeep maxCallDepth location)
  | calls + 1, f, location =>
    match m.function? f with
    | none => throw (.unknownFunction f location)
    | some function => framed o.withLedger f (function.body.ledger m o (invokeLedger m o calls))

/-- Evaluates a call as `Model.evaluate` does and keeps the ledger. -/
def Model.ledger (o : Observer σ) (call : Call) : EStateM EvalError ((σ × Ledger) × Model) Effects := fun (s, m) =>
  match invokeLedger m o (maxCallDepth + 1) call.callee call.location (.start s m.nextObject) with
  | .ok flow r => .ok (r.effects flow) (r.observer, m.afterRun r)
  | .error e r => .error e (r.observer, m.afterRun r)

/-! ## Agreement -/

theorem Observer.withLedger_determines (o : Observer σ) : o.withLedger.Determines o Prod.fst := fun _ _ => rfl

namespace Seen

/-- The observer does not see the ledger. -/
theorem keep {f : Run (σ × Ledger) → Ledger} {g : α → β} {x : Eval (σ × Ledger) α} {y : Eval σ β}
    (hx : Seen Prod.fst g x y) : Seen Prod.fst g (do Ledger.keep f; x) y :=
  fun r => hx { r with observer := (r.observer.1, f r) }

theorem then_keep {f : Run (σ × Ledger) → Ledger} {x : Eval (σ × Ledger) α} {y : Eval σ α}
    (hx : Seen Prod.fst id x y) : Seen Prod.fst id (do let a ← x; Ledger.keep f; return a) y := by
  intro r
  rw [hx r]
  simp only [Bind.bind, EStateM.bind]
  cases x r <;> rfl

variable {run : CallableId → Location → Eval (σ × Ledger) Flow} {run' : CallableId → Location → Eval σ Flow}

theorem ledger (hrun : ∀ c l, Seen Prod.fst id (run c l) (run' c l)) {b : Body} (hb : b.AllObjects fun a => id a = a) :
    Seen Prod.fst id (b.ledger m o run) (b.run m o run') := by
  have S := Seen.simulation o.withLedger_determines m
  induction b with
  | done => exact fun _ => rfl
  | op first rest ih => exact S.andThen (keep (then_keep (S.op rfl hrun hb.1))) (ih hb.2)
  | loop times block rest ihb ihr => exact S.andThen (S.iterate (ihb hb.1) times) (ihr hb.2)
  | ifEquals t k v s block rest ihb ihr =>
    obtain ⟨ht, hv, hblock, hrest⟩ := hb
    refine keep (S.bind (S.holds rfl ht hv k s) fun c => ?_)
    cases c with
    | true => exact S.andThen (ihb hblock) (ihr hrest)
    | false => exact ihr hrest

theorem invokeLedger (calls : Nat) (c : CallableId) (l : Location) :
    Seen Prod.fst id (invokeLedger m o calls c l) (invoke m o calls c l) := by
  induction calls generalizing c l with
  | zero => exact fun _ => rfl
  | succ calls ih =>
    simp only [Independence.invokeLedger, invoke]
    cases m.function? c with
    | none => exact fun _ => rfl
    | some g => exact framed o.withLedger_determines c (ledger ih (g.body.allObjects_of_forall fun _ => rfl))

end Seen

/-- An evaluation with a ledger is the evaluation, however it ends. -/
theorem Model.evaluate_ledger (o : Observer σ) (call : Call) (s : σ) (l : Ledger) (m : Model) :
    Model.evaluate o call (s, m) = mapOutcome id (fun p => (p.1.1, p.2)) (Model.ledger o call ((s, l), m)) := by
  have hrun := Seen.invokeLedger (m := m) (o := o) (maxCallDepth + 1) call.callee call.location
    (.start (s, l) m.nextObject)
  have hstart : (Run.start (s, l) m.nextObject).seenThrough Prod.fst = .start s m.nextObject := rfl
  rw [hstart] at hrun
  simp only [Model.evaluate, Model.ledger, hrun]
  cases Independence.invokeLedger m o (maxCallDepth + 1) call.callee call.location (.start (s, l) m.nextObject) <;> rfl

/-! ## What is in the ledger -/

/-- The run started when `n` was the next number, and its ledger accounts for everything since: handed out are the numbers
from `n` on, they are what was created, and the targets of the running function are among them, like all that were used. -/
structure Run.Accounted (n : Nat) (r : Run (σ × Ledger)) : Prop where
  le_next : n ≤ r.nextObject
  handedOut : r.observer.2.handedOut = ObjectId.between n r.nextObject
  created : ∀ a, a ∈ r.created ↔ a ∈ r.observer.2.handedOut
  locals : ∀ a ∈ r.locals, a ∈ r.observer.2.handedOut
  used : ∀ a ∈ r.observer.2.used, a ∈ r.observer.2.handedOut

/-- The run goes on with its ledger in order, and strikes nothing out. -/
def Run.KeepsAccount (n : Nat) (r s : Run (σ × Ledger)) : Prop :=
  r.Accounted n → s.Accounted n ∧ r.observer.2.handedOut ⊆ s.observer.2.handedOut

instance : IsPreorder (Run (σ × Ledger)) (Run.KeepsAccount n) where
  refl _ h := ⟨h, List.Subset.refl _⟩
  trans _ _ _ hrs hst h := ⟨(hst (hrs h).1).1, List.Subset.trans (hrs h).2 (hst (hrs h).1).2⟩

/-- What goes on without a word about objects keeps the account. -/
theorem Run.keepsAccount_of_same {r s : Run (σ × Ledger)} (hnext : s.nextObject = r.nextObject)
    (hcreated : s.created = r.created) (hlocals : s.locals = r.locals) (hledger : s.observer.2 = r.observer.2) :
    r.KeepsAccount n s := by
  intro h
  refine ⟨⟨hnext ▸ h.le_next, ?_, ?_, ?_, ?_⟩, ?_⟩
  · rw [hledger, hnext, h.handedOut]
  · rw [hcreated, hledger]
    exact h.created
  · rw [hlocals, hledger]
    exact h.locals
  · rw [hledger]
    exact h.used
  · rw [hledger]
    exact List.Subset.refl _

/-- The computation keeps the account of a run that started at `n`. -/
abbrev KeepsAccount (n : Nat) (x : Eval (σ × Ledger) α) : Prop := Moves (Run.KeepsAccount n) x

namespace KeepsAccount

variable {run : CallableId → Location → Eval (σ × Ledger) Flow}

theorem notify (e : Event) : KeepsAccount n (notify o.withLedger e) := fun _ =>
  Run.keepsAccount_of_same rfl rfl rfl rfl

theorem announce (e : SideEffect) : KeepsAccount n (announce o.withLedger e) := by
  intro r
  rw [finalState_announce]
  exact Run.keepsAccount_of_same rfl rfl rfl rfl

theorem announceWrite (b : Binding) (l : Location) : KeepsAccount n (announceWrite o.withLedger b l) := by
  intro r
  unfold Independence.announceWrite
  split
  · exact refl_of _ r
  · exact announce _ r

theorem resolve (t : Target) (l : Location) : KeepsAccount n (t.resolve l : Eval (σ × Ledger) ObjectId) := by
  intro r
  rw [finalState_resolve]
  exact refl_of _ r

theorem noteUse (target : Option Target) : KeepsAccount n (Ledger.noteUse target : Eval (σ × Ledger) Unit) := by
  intro r h
  refine ⟨⟨h.le_next, h.handedOut, h.created, h.locals, fun a ha => ?_⟩, List.Subset.refl _⟩
  rcases List.mem_append.1 ha with ha | ha
  · exact h.used a ha
  · -- Only what the running function allocated can be meant.
    obtain ⟨t, -, ht⟩ := Option.bind_eq_some_iff.1 (Option.mem_toList.1 ha)
    cases t with
    | object a => cases ht
    | allocated i => exact h.locals a (Array.mem_of_getElem? ht)

/-- Only an allocation and a call touch what a run has of objects. -/
theorem run_of_ne_allocate (hrun : ∀ c l, KeepsAccount n (run c l)) {op : Op} (hop : op ≠ .allocate) :
    KeepsAccount n (op.run m o.withLedger run) := by
  have hnext : KeepsAccount n (return Flow.next : Eval (σ × Ledger) Flow) := Moves.pure _
  cases op with
  | allocate => exact absurd rfl hop
  | write t k v s =>
    rw [Op.run_write]
    exact Moves.bind (resolve t _) fun a => Moves.bind (announceWrite _ _) fun _ =>
      Moves.bind (fun _ => Run.keepsAccount_of_same rfl rfl rfl rfl) fun _ => hnext
  | read t k s => exact Moves.bind (resolve t _) fun a => Moves.bind (notify _) fun _ => hnext
  | enumerate t s => exact Moves.bind (resolve t _) fun a => Moves.bind (notify _) fun _ => hnext
  | call c s =>
    refine Moves.bind (hrun c _) fun flow => ?_
    cases flow <;> exact Moves.pure _
  | register v shape s => exact Moves.bind (notify _) fun _ => hnext
  | assignGlobal name s => exact Moves.bind (announce _) fun _ => hnext
  | throw s => exact Moves.pure _
  | mayThrow s => exact Moves.bind (fun _ => Run.keepsAccount_of_same rfl rfl rfl rfl) fun _ => hnext
  | «return» v => exact Moves.pure _

/-- An allocation and the note of it together keep the account. -/
theorem allocate (r : Run (σ × Ledger)) (h : r.Accounted n) :
    let noted : Ledger := { r.observer.2 with handedOut := r.observer.2.handedOut ++ [⟨r.nextObject⟩] }
    { r.allocate with observer := (r.observer.1, noted) }.Accounted n := by
  have hmore : ∀ a ∈ r.observer.2.handedOut, a ∈ r.observer.2.handedOut ++ [⟨r.nextObject⟩] :=
    fun a ha => List.mem_append_left _ ha
  refine ⟨Nat.le_succ_of_le h.le_next, ?_, fun a => ?_, fun a ha => ?_, fun a ha => hmore a (h.used a ha)⟩
  · simp only [h.handedOut, Run.allocate, ObjectId.between_succ h.le_next]
  · simp only [Run.allocate, Std.ExtTreeSet.mem_insert, Std.compare_eq_iff_eq, h.created, List.mem_append,
      List.mem_singleton]
    rw [or_comm, eq_comm]
  · rcases Array.mem_push.1 ha with ha | rfl
    · exact hmore a (h.locals a ha)
    · exact List.mem_append_right _ (List.mem_singleton.2 rfl)

theorem op (hrun : ∀ c l, KeepsAccount n (run c l)) (op : Op) : KeepsAccount n (op.ledger m o run) := by
  by_cases hop : op = .allocate
  · subst hop
    intro r h
    -- What the allocation gave to the running function last is what is noted.
    have hnew : r.allocate.locals.back?.toList = [⟨r.nextObject⟩] := by simp [Run.allocate]
    have hfinal : finalState (Op.allocate.ledger m o run r) = { r.allocate with
        observer := (r.observer.1, ⟨r.observer.2.handedOut ++ r.allocate.locals.back?.toList, r.observer.2.used ++ []⟩) } :=
      rfl
    rw [hfinal, hnew, List.append_nil]
    exact ⟨allocate r h, List.subset_append_left _ _⟩
  · refine Moves.bind (noteUse _) fun _ => Moves.bind (run_of_ne_allocate hrun hop) fun flow =>
      Moves.bind (fun r => ?_) fun _ => Moves.pure flow
    cases op <;> first | exact absurd rfl hop | exact Run.keepsAccount_of_same rfl rfl rfl rfl

theorem body (hrun : ∀ c l, KeepsAccount n (run c l)) (b : Body) : KeepsAccount n (b.ledger m o run) := by
  induction b with
  | done => exact Moves.pure _
  | op first rest ih => exact Moves.andThen (op hrun first) ih
  | loop times block rest ihb ihr => exact Moves.andThen (Moves.iterate ihb times) ihr
  | ifEquals t k v s block rest ihb ihr =>
    refine Moves.bind (noteUse _) fun _ => Moves.bind ?_ fun c => ?_
    · rw [Target.holds_eq]
      exact Moves.bind (resolve t _) fun a => Moves.bind (notify _) fun _ => Moves.bind (refl_of _) fun _ => Moves.pure _
    · cases c with
      | true => exact Moves.andThen ihb ihr
      | false => exact ihr

/-- A call has objects of its own, and its caller has its own again afterwards. -/
theorem framed (c : CallableId) {x : Eval (σ × Ledger) Flow} (hx : KeepsAccount n x) :
    KeepsAccount n (framed o.withLedger c x) := by
  intro r h
  have henter : { r.observe o.withLedger (.enter c) with locals := #[] }.Accounted n :=
    ⟨h.le_next, h.handedOut, h.created, fun a ha => by simp at ha, h.used⟩
  obtain ⟨hin, hmore⟩ := hx _ henter
  rw [finalState_framed]
  exact ⟨⟨hin.le_next, hin.handedOut, hin.created, fun a ha => hmore (h.locals a ha), hin.used⟩, hmore⟩

theorem invoke (calls : Nat) (c : CallableId) (l : Location) : KeepsAccount n (invokeLedger m o calls c l) := by
  induction calls generalizing c l with
  | zero => exact fun r => refl_of _ r
  | succ calls ih =>
    unfold invokeLedger
    cases m.function? c with
    | none => exact fun r => refl_of _ r
    | some g => exact framed c (body ih g.body)

end KeepsAccount

namespace Model

/-- What a ledger says of an evaluation that left the model `m'`: handed out, in order, were the numbers between the one at
the start and the one at the end; if there are effects, they are what was created; and each own target that was used is one
of them. -/
structure Covers (m m' : Model) (l : Ledger) : Prop where
  le_next : m.nextObject ≤ m'.nextObject
  handedOut : l.handedOut = ObjectId.between m.nextObject m'.nextObject
  used : ∀ a ∈ l.used, a ∈ l.handedOut

theorem accounted_ledger (o : Observer σ) (call : Call) (s : σ) (m : Model) :
    (finalState (invokeLedger m o (maxCallDepth + 1) call.callee call.location
      (.start (s, Ledger.empty) m.nextObject))).Accounted m.nextObject := by
  refine (KeepsAccount.invoke (maxCallDepth + 1) call.callee call.location _ ?_).1
  refine ⟨Nat.le_refl _, (ObjectId.between_self _).symm, fun a => ?_, fun a ha => ?_, fun a ha => by cases ha⟩
  · exact iff_of_false Std.ExtTreeSet.not_mem_empty List.not_mem_nil
  · simp [Run.start] at ha

/-- The ledger of every evaluation accounts for its objects, however it ends. -/
theorem covers_ledger (o : Observer σ) (call : Call) (s : σ) (m : Model) :
    let x := Model.ledger o call ((s, .empty), m)
    m.Covers (finalState x).2 (finalState x).1.2 ∧
      ∀ e t, x = .ok e t → ∀ a, a ∈ e.created ↔ a ∈ t.1.2.handedOut := by
  have h := accounted_ledger o call s m
  simp only [Model.ledger]
  cases hrun : invokeLedger m o (maxCallDepth + 1) call.callee call.location
      (.start (s, Ledger.empty) m.nextObject) with
  | ok flow r =>
    rw [hrun] at h
    refine ⟨⟨h.le_next, h.handedOut, h.used⟩, ?_⟩
    rintro e t ⟨⟩
    exact h.created
  | error x r =>
    rw [hrun] at h
    refine ⟨⟨h.le_next, h.handedOut, h.used⟩, ?_⟩
    rintro e t ⟨⟩

end Model

end Independence
