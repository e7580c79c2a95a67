import Independence.Report.Diagnostic
import Independence.Evaluation.Event
/-!
# Reporting

A reporter keeps diagnostics and decides after each whether the analysis goes on. A fatal one always aborts.
For any other a handler is asked, if there is one, and where it does not decide the policy does. A diagnostic
that repeats a report is decided like any other but not kept again.
-/

namespace Independence

/-- What happens after a diagnostic that is not fatal and that no handler decides. -/
structure Policy where
  warningsAbort : Bool
  recoverErrors : Bool
deriving DecidableEq, Repr

namespace Policy

def decide (p : Policy) : Severity → Decision
  | .warning => if p.warningsAbort then .abort else .proceed
  | .recoverable => if p.recoverErrors then .proceed else .abort
  | .fatal => .abort

end Policy

/-- Decides on a diagnostic, or leaves it to the policy. Besides the diagnostic it knows those that it was
asked about before, the last one first. -/
abbrev Handler := List Diagnostic → Diagnostic → Option Decision

structure Report where
  diagnostic : Diagnostic
  answer : Option (Option Decision)
  decision : Decision
deriving DecidableEq, Repr

structure Reporter where
  policy : Policy
  handler : Option Handler
  /-- What the handler was asked about before this reporter, the last one first. -/
  earlier : List Diagnostic
  reports : List Report
  /-- The diagnostics kept so far, in order of report. -/
  diagnostics : List Diagnostic

namespace Reporter

def new (policy : Policy) (handler : Option Handler) (earlier : List Diagnostic) : Reporter :=
  ⟨policy, handler, earlier, [], []⟩

/-- What the handler was asked by this reporter with its answers, the last one first. -/
def consulted (r : Reporter) : List (Diagnostic × Option Decision) :=
  r.reports.filterMap fun p => p.answer.map (p.diagnostic, ·)

/-- Everything the handler was asked about, the last one first. -/
def history (r : Reporter) : List Diagnostic := r.consulted.map Prod.fst ++ r.earlier

/-- Judges a diagnostic. The handler is asked unless the diagnostic is fatal. -/
def judge (r : Reporter) (d : Diagnostic) : Report :=
  match d.severity, r.handler with
  | .fatal, _ => ⟨d, none, .abort⟩
  | severity, none => ⟨d, none, r.policy.decide severity⟩
  | severity, some handler =>
    let answer := handler r.history d
    ⟨d, some answer, answer.getD (r.policy.decide severity)⟩

/-- Keeps a diagnostic unless the same report is kept already. -/
def keep (r : Reporter) (d : Diagnostic) : Reporter :=
  if r.diagnostics.any (·.sameReport d) then r
  else { r with diagnostics := r.diagnostics ++ [d] }

def report (r : Reporter) (d : Diagnostic) : Decision × Reporter :=
  let p := r.judge d
  (p.decision, { r.keep d with reports := p :: r.reports })

/-- Removes the handler, and tells whether there was one. -/
def takeHandler (r : Reporter) : Bool × Reporter := (r.handler.isSome, { r with handler := none })

def warnings (r : Reporter) : List Diagnostic := r.diagnostics.filter (·.severity == .warning)

def hasErrors (r : Reporter) : Bool := r.diagnostics.any (·.severity.isError)

end Reporter

end Independence
