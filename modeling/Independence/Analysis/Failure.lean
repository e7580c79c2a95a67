import Independence.Report.Diagnostic
import Independence.Heap.Value
import Independence.Evaluation.Event
/-!
# Failures of the analysis

Why a run stopped. The reporter has seen a diagnostic with the failure's code by then.
-/

namespace Independence

/-- What was asked to be analysed and cannot be. -/
inductive InvalidTarget where
  | value (v : Value)
  | undefined (f : CallableId)
deriving Repr

def InvalidTarget.describe : InvalidTarget → String
  | .value v => s!"{v.kind} {v.text}"
  | .undefined f => s!"{f.text} without a known definition"

inductive Failure where
  | invalidTarget (target : InvalidTarget) (location : Option Location)
  | unsupportedParameter (f : CallableId) (name : String) (index : Nat)
  | doubleOptimization (f : CallableId) (name : String)
  | sideEffectEscalated (f : CallableId) (name : String)
  | abruptCompletion (count : Nat)
  | writeConflicts (count : Nat)
  | depthExceeded (limit : Nat)
  | notUnwound (depth : Nat)
  | evaluation (e : EvalError)
deriving Repr

namespace Failure

def code : Failure → Code
  | invalidTarget _ _ => .invalidTarget
  | unsupportedParameter _ _ _ => .unsupportedParameter
  | doubleOptimization _ _ => .doubleOptimization
  | sideEffectEscalated _ _ => .sideEffect
  | abruptCompletion _ => .abruptCompletion
  | writeConflicts _ => .writeConflict
  | depthExceeded _ => .depthExceeded
  | notUnwound _ => .notUnwound
  | evaluation _ => .evaluationFailed

def message : Failure → String
  | invalidTarget target _ =>
    s!"{target.describe} cannot be optimized: it is neither callable nor a component root"
  | unsupportedParameter _ name index => s!"parameter #{index} of {name} is not a simple identifier"
  | doubleOptimization _ name => s!"{name} is already optimized"
  | sideEffectEscalated _ name => s!"side effect in {name} was escalated to an error"
  | abruptCompletion count => s!"{count} optimized function(s) always complete abruptly"
  | writeConflicts count => s!"found {count} write conflict(s) between optimized functions"
  | depthExceeded limit => s!"optimized functions nested deeper than {limit}"
  | notUnwound depth => s!"candidate traversal finished with {depth} frame(s) still open"
  | evaluation e => e.message

end Failure

end Independence
