import Independence.Analysis.Discovery
import Independence.Analysis.Interference
import Independence.Settings
/-!
# Checking independence

A run captures the roots and everything they reveal, and then verifies that no candidate sees what another
one writes. Only a run without conflicts has a table as its result.
-/

namespace Independence

/-- Candidates proven independent, with the warnings on the way. -/
structure Verified where
  table : Table
  warnings : List Diagnostic

/-- A run that stopped: why, and everything that was reported. -/
structure FailedRun where
  failure : Failure
  diagnostics : List Diagnostic
deriving Repr

namespace FailedRun

/-- The failure and the diagnostics, each on a line of its own. -/
def text (r : FailedRun) : String :=
  r.failure.message ++ String.join (r.diagnostics.map fun d => "\n  " ++ d.text)

def withCode (r : FailedRun) (c : Code) : List Diagnostic := r.diagnostics.filter (·.code == c)

end FailedRun

namespace Analysis

variable {m : Type} [Evaluator m]

/-- Both phases: discovery, then verification. -/
def analyse (setup : Setup) : Analysis m Unit := do
  discover setup
  let conflicts ← verify setup
  match ← reportConflicts conflicts with
  | .abort => throw (.writeConflicts conflicts.length)
  | .proceed => return

end Analysis

/-- An evaluator with the settings, names and handler under which it is analysed. -/
structure Checker (m : Type) where
  evaluator : m
  settings : Settings
  names : Names
  handler : Option Handler
  /-- What the handler was asked about so far, the last one first. -/
  consulted : List (Diagnostic × Option Decision)

namespace Checker

variable {m : Type} [Evaluator m]

def setup (c : Checker m) : Setup := ⟨c.names, c.settings.maxNestingDepth⟩

def session (c : Checker m) (roots : List Request) : Session m :=
  .start c.evaluator roots (.new c.settings.policy c.handler (c.consulted.map Prod.fst))

def after (c : Checker m) (s : Session m) : Checker m :=
  { c with evaluator := s.evaluator, consulted := s.reporter.consulted ++ c.consulted }

/-- Captures `roots` and everything they reveal, then verifies them. -/
def run (c : Checker m) (roots : List Request) : Except FailedRun Verified × Checker m :=
  match Analysis.analyse c.setup (c.session roots) with
  | .ok () s => (.ok ⟨s.table, s.reporter.warnings⟩, c.after s)
  | .error e s => (.error ⟨e, s.reporter.diagnostics⟩, c.after s)

end Checker

end Independence
