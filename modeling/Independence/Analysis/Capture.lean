import Independence.Analysis.Session
/-!
# Capturing a candidate

A candidate is called with placeholders and its effects are recorded. Side effects that the evaluation shows
are reported while it runs, and the answer decides whether it goes on; what it registers becomes pending.
-/

namespace Independence

def UnsupportedParameter.diagnostic (p : UnsupportedParameter) (name : String) : Diagnostic :=
  .fatal .unsupportedParameter
    (s!"Non-identifier args to optimized functions unsupported: parameter #{p.index} of {name} is a " ++
      p.pattern.describe)
    (some p.location)

namespace SideEffect

def suggestion (e : SideEffect) : String :=
  match e.kind with
  | .assignedGlobal name => s!"keep `{name}` local to the optimized function"
  | .wroteProperty _ => "create the object inside the optimized function instead of mutating it"

def diagnostic (e : SideEffect) (name : String) : Diagnostic :=
  (Diagnostic.warning .sideEffect s!"optimized function {name} {e.kind.text}" e.location).withSuggestion
    e.suggestion

end SideEffect

/-- What a capture watches and changes while the candidate runs. -/
structure Watch where
  reporter : Reporter
  traversal : Traversal
  /-- Whether the report of a side effect was answered with an abort. -/
  escalated : Bool

/-- Reports side effects of the candidate called `name`, and makes pending what it registers. -/
def captureObserver (name : String) : Observer Watch where
  answer
    | .sideEffect e, w =>
      let (decision, reporter) := w.reporter.report (e.diagnostic name)
      (decision, { w with reporter, escalated := w.escalated || decision == .abort })
    | .register r, w => (.proceed, { w with traversal := w.traversal.register r })
    | _, w => (.proceed, w)

namespace Analysis

variable {m : Type} [Evaluator m]

/-- Evaluates the call of a candidate under watch. Besides the outcome it tells whether a side effect was
escalated. -/
def evaluateWatched (name : String) (call : Call) : Analysis m (Except EvalError Effects × Bool) := fun s =>
  let watch : Watch := ⟨s.reporter, s.traversal, false⟩
  let after (w : Watch) (evaluator : m) : Session m :=
    { s with evaluator, reporter := w.reporter, traversal := w.traversal }
  match Evaluator.evaluate (captureObserver name) call (watch, s.evaluator) with
  | .ok effects (w, evaluator) => .ok (.ok effects, w.escalated) (after w evaluator)
  | .error e (w, evaluator) => .ok (.error e, w.escalated) (after w evaluator)

/-- Evaluates a call and judges its failure: an abort after an escalated side effect was reported already. -/
def effectsOf (f : CallableId) (name : String) (signature : Signature) (call : Call) : Analysis m Effects := do
  match ← evaluateWatched name call with
  | (.ok effects, _) => return effects
  | (.error .aborted, true) => throw (.sideEffectEscalated f name)
  | (.error e, _) =>
    fail (.fatal .evaluationFailed s!"could not evaluate optimized function {name}: {e.message}"
      (e.location? <|> some signature.location)) (.evaluation e)

/-- Evaluates a candidate speculatively and records what it did. The record belongs to the innermost commit
of the traversal. -/
def capture (setup : Setup) (c : Candidate) : Analysis m Record := do
  let s ← get
  let f := c.callable
  let name := setup.names.resolve s.evaluator f
  if s.table.contains f then
    fail (.fatal .doubleOptimization s!"Optimized function {name} already has recorded effects"
      c.request.location) (.doubleOptimization f name)
  else
    match Evaluator.signature? s.evaluator f with
    | none =>
      let target := InvalidTarget.undefined f
      fail (.fatal .invalidTarget s!"{target.describe} cannot be optimized" c.request.location)
        (.invalidTarget target c.request.location)
    | some signature =>
      match s.placeholders.synthesize f signature c.request.shape with
      | .error p => fail (p.diagnostic name) (.unsupportedParameter f name p.index)
      | .ok (call, placeholders) =>
        set { s with placeholders }
        let effects ← effectsOf f name signature call
        return ⟨c, signature, effects, s.traversal.parent?, s.traversal.baseline⟩

end Analysis

end Independence
