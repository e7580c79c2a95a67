import Independence.Evaluation.Run
/-!
# Evaluators

The analysis runs on any evaluator: something that describes callables, evaluates calls without applying
their effects, and commits effects until they are rolled back. Program models are evaluators.
-/

namespace Independence

/-- What the analysis asks of the machinery that runs code. -/
class Evaluator (m : Type) where
  /-- What is known about a callable, nothing if it has no definition. -/
  signature? : m → CallableId → Option Signature
  /-- The callable that renders a component root. -/
  compositeRoot? : m → ObjectId → Option CallableId
  /-- Evaluates a call against the current baseline, telling the observer. -/
  evaluate {σ : Type} : Observer σ → Call → EStateM EvalError (σ × m) Effects
  Undo : Type
  commit : Effects → m → m × Undo
  rollback : m → Undo → m

instance : Evaluator Model where
  signature? := Model.signature?
  compositeRoot? := Model.compositeRoot?
  evaluate := Model.evaluate
  Undo := Heap.Undo
  commit e m :=
    let (heap, undo) := m.heap.commit e
    ({ m with heap }, undo)
  rollback m undo := { m with heap := m.heap.rollback undo }

namespace Evaluator

variable {m : Type} [Evaluator m] {α : Type}

/-- Runs `body` with effects committed, and undoes the commit afterwards. -/
def within (e : Effects) (body : m → α × m) (s : m) : α × m :=
  let (s, undo) := commit e s
  let (a, s) := body s
  (a, rollback s undo)

/-- Runs `body` with a chain of effects committed, the first one outermost. -/
def withinAll : List Effects → (m → α × m) → m → α × m
  | [], body => body
  | e :: es, body => within e (withinAll es body)

/-- The callable that a value stands for as a candidate: a function itself, a component root by the callable
that renders it. -/
def candidate? (s : m) : Value → Option CallableId
  | .function f => some f
  | .object o => compositeRoot? s o
  | .abstract _ | .primitive _ => none

end Evaluator

end Independence
