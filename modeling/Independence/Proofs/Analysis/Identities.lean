import Independence.Proofs.Analysis.Journal
/-!
# No identity twice

A model is built, edited, evaluated and analysed, in any order. Whatever is done, the objects handed out have ascending
numbers, without a gap, also across evaluations that fail and across the captures and replays of runs. So what one
evaluation created no other one did, and it was not there before.
-/

namespace Independence

/-- A change of a model that hands out no object. -/
inductive Edit where
  | intern (name : String)
  | set (b : Binding) (v : Value)
  | define (name : Option String) (params : List Parameter) (body : Body)
  | setBody (f : CallableId) (body : Body)
  | markRoot (o : ObjectId) (f : CallableId)
  | commit (e : Effects)
  | rollback (undo : Heap.Undo)

/-- Something that is done with a model. -/
inductive Action : Type 1 where
  | edit (e : Edit)
  | object
  | evaluate {σ : Type} (o : Observer σ) (s : σ) (call : Call)
  | run (settings : Settings) (names : Names) (handler : Option Handler)
    (consulted : List (Diagnostic × Option Decision)) (roots : List Request)

namespace Model

def edit (m : Model) : Edit → Model
  | .intern name => (m.intern name).2
  | .set b v => m.set b v
  | .define name params body => (m.define name params body).2
  | .setBody f body => m.setBody f body
  | .markRoot o f => m.markRoot o f
  | .commit e => (Evaluator.commit e m).1
  | .rollback undo => Evaluator.rollback m undo

/-- Does something with the model. Besides the model afterwards the result is what was created, in order: an object, the
objects of an evaluation that returned, or for each record of a run those of its capture. -/
def perform (m : Model) : Action → List ObjectSet × Model
  | .edit e => ([], m.edit e)
  | .object =>
    let (o, m) := m.object
    ([.ofList [o]], m)
  | .evaluate o s call =>
    match Model.evaluate o call (s, m) with
    | .ok e (_, m) => ([e.created], m)
    | .error _ (_, m) => ([], m)
  | .run settings names handler consulted roots =>
    let c : Checker Model := ⟨m, settings, names, handler, consulted⟩
    ((c.finished roots).table.created, (c.run roots).2.evaluator)

def performAll (m : Model) : List Action → List ObjectSet × Model
  | [] => ([], m)
  | a :: actions =>
    let (created, m) := m.perform a
    let (later, m) := m.performAll actions
    (created ++ later, m)

@[simp] theorem nextObject_edit (m : Model) (e : Edit) : (m.edit e).nextObject = m.nextObject := by
  cases e <;> rfl

end Model

namespace Journal

/-- Does the same with the model of the journal, and keeps the accounts. -/
def perform (j : Journal) : Action → List ObjectSet × Journal
  | .edit e => ([], { j with model := j.model.edit e })
  | .object =>
    let (o, m) := j.model.object
    ([.ofList [o]], j.enter m ⟨[o], []⟩ (some (.ofList [o])))
  | .evaluate o s call =>
    match Evaluator.evaluate o call (s, j) with
    | .ok e (_, j) => ([e.created], j)
    | .error _ (_, j) => ([], j)
  | .run settings names handler consulted roots =>
    let c : Checker Journal := ⟨j, settings, names, handler, consulted⟩
    ((c.finished roots).table.created, (c.run roots).2.evaluator)

def performAll (j : Journal) : List Action → List ObjectSet × Journal
  | [] => ([], j)
  | a :: actions =>
    let (created, j) := j.perform a
    let (later, j) := j.performAll actions
    (created ++ later, j)

/-! ## The journal follows the model -/

theorem perform_model (j : Journal) (a : Action) : Prod.map id model (j.perform a) = j.model.perform a := by
  cases a with
  | edit e => rfl
  | object => rfl
  | evaluate o s call =>
    have hcall : Model.evaluate o call (s, j.model) = mapOutcome id (Prod.map id model) (Evaluator.evaluate o call (s, j)) :=
      toModel.evaluate o call s j
    simp only [perform, Model.perform, hcall]
    cases Evaluator.evaluate o call (s, j) <;> rfl
  | run settings names handler consulted roots =>
    let c : Checker Journal := ⟨j, settings, names, handler, consulted⟩
    refine Prod.ext ?_ ?_
    · exact congrArg (·.table.created) (c.finished_translate toModel roots).symm
    · exact congrArg (·.2.evaluator) (c.run_translate toModel roots).symm

theorem performAll_model (j : Journal) (actions : List Action) :
    Prod.map id model (j.performAll actions) = j.model.performAll actions := by
  induction actions generalizing j with
  | nil => rfl
  | cons a actions ih => simp only [performAll, Model.performAll, ← perform_model, Prod.map, id_eq, ← ih]

/-! ## The accounts stay in order -/

/-- Whatever is done, the journal backs what is created by it. -/
theorem Regular.perform {start : Nat} {j : Journal} (h : j.Regular start) (a : Action) :
    (j.perform a).2.Backs start j.accounts (j.perform a).1 := by
  cases a with
  | edit e => exact (Backs.begin h).of_same (Model.nextObject_edit j.model e) rfl
  | object =>
    have hnew : ObjectId.between j.model.nextObject (j.model.nextObject + 1) = [⟨j.model.nextObject⟩] := by
      rw [ObjectId.between_succ (Nat.le_refl _), ObjectId.between_self, List.nil_append]
    refine Backs.enter h ⟨Nat.le_succ _, hnew.symm, fun _ ha => absurd ha List.not_mem_nil⟩ ?_
    rintro _ ⟨⟩ a
    rw [Std.ExtTreeSet.mem_ofList, List.contains_iff_mem]
  | evaluate o s call =>
    have hcall := h.evaluate o call s
    simp only [Journal.perform]
    cases he : Evaluator.evaluate o call (s, j) <;> rw [he] at hcall <;> exact hcall
  | run settings names handler consulted roots =>
    let c : Checker Journal := ⟨j, settings, names, handler, consulted⟩
    have hfinished : (c.finished roots).evaluator.Backs start j.accounts (c.finished roots).table.created :=
      Analysis.analyse_backed.final (c.session roots) (Backs.begin h)
    simp only [Journal.perform, Checker.run_leaves]
    exact hfinished

theorem Regular.performAll {start : Nat} {j : Journal} (h : j.Regular start) (actions : List Action) :
    (j.performAll actions).2.Backs start j.accounts (j.performAll actions).1 := by
  induction actions generalizing j with
  | nil => exact Backs.begin h
  | cons a actions ih => exact (h.perform a).append (ih (h.perform a).regular)

end Journal

/-! ## Accounts do not overlap -/

/-- All objects of the first set have smaller numbers, so the sets are disjoint. -/
def ObjectSet.Precedes (A B : ObjectSet) : Prop := ∀ a ∈ A, ∀ b ∈ B, a.index < b.index

namespace Journal.Regular

variable {start : Nat} {j : Journal}

/-- Whatever is created is among what was handed out. -/
theorem mem_created (h : j.Regular start) {A : ObjectSet} (hA : A ∈ j.accounts.filterMap Account.created) {a : ObjectId}
    (ha : a ∈ A) : start ≤ a.index ∧ a.index < j.model.nextObject := by
  obtain ⟨x, hx, hcreated⟩ := List.mem_filterMap.1 hA
  rw [← ObjectId.mem_between, ← h.handedOut]
  exact List.mem_flatMap.2 ⟨x, hx, ((h.clear x hx).created A hcreated a).1 ha⟩

theorem pairwise_created (h : j.Regular start) :
    (j.accounts.filterMap Account.created).Pairwise ObjectSet.Precedes := by
  have hascending := ObjectId.pairwise_between start j.model.nextObject
  rw [← h.handedOut, Journal.handedOut, List.pairwise_flatMap] at hascending
  rw [List.pairwise_filterMap]
  refine hascending.2.imp_of_mem fun {x y} hx hy hxy A hA B hB a ha b hb => ?_
  exact hxy a (((h.clear x hx).created A hA a).1 ha) b (((h.clear y hy).created B hB b).1 hb)

end Journal.Regular

/-- Whatever is done with a model, a journal of it that goes through the same has the accounts of all evaluations. What was
handed out are all numbers from the first one on, in ascending order. Each account is of a part of them without a gap: if
its evaluation returned, that part is what it created, and nothing else was meant by its own targets. So what the actions
create, in order, is new each time: none of it is found in two of them, or was there before. -/
theorem Model.never_reuses_identities (m : Model) (actions : List Action) :
    let j := (Journal.performAll ⟨m, []⟩ actions).2
    let (created, m') := m.performAll actions
    Prod.map id Journal.model (Journal.performAll ⟨m, []⟩ actions) = (created, m') ∧
      j.handedOut = ObjectId.between m.nextObject m'.nextObject ∧
      j.handedOut.Pairwise (·.index < ·.index) ∧
      (∀ x ∈ j.accounts, x.Clear) ∧
      (j.accounts.filterMap Account.created).Pairwise ObjectSet.Precedes ∧
      created.Sublist (j.accounts.filterMap Account.created) ∧
      created.Pairwise ObjectSet.Precedes ∧
      ∀ A ∈ created, ∀ a ∈ A, m.nextObject ≤ a.index ∧ a.index < m'.nextObject := by
  have hmodel : Prod.map id Journal.model (Journal.performAll ⟨m, []⟩ actions) = m.performAll actions :=
    Journal.performAll_model ⟨m, []⟩ actions
  obtain ⟨hregular, own, hown, hcreated⟩ := (Journal.regular_begin m).performAll actions
  rw [List.nil_append] at hown
  rw [← hown] at hcreated
  rw [← hmodel]
  have hascending : (Journal.performAll ⟨m, []⟩ actions).2.handedOut.Pairwise (·.index < ·.index) := by
    rw [hregular.handedOut]
    exact ObjectId.pairwise_between _ _
  exact ⟨rfl, hregular.handedOut, hascending, hregular.clear, hregular.pairwise_created, hcreated,
    hregular.pairwise_created.sublist hcreated, fun A hA a ha => hregular.mem_created (hcreated.subset hA) ha⟩

end Independence
