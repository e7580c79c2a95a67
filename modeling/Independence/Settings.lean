import Independence.Report.Reporter
import Independence.Decimal.Numeral
/-!
# Settings

The settings of an analysis, set one by one or read from an environment. A variable that is unset or cannot
be read keeps the default.
-/

namespace Independence

inductive LogLevel where
  | off
  | error
  | warn
  | info
  | debug
  | trace
deriving DecidableEq, Repr

namespace LogLevel

def text : LogLevel → String
  | off => "off"
  | error => "error"
  | warn => "warn"
  | info => "info"
  | debug => "debug"
  | trace => "trace"

/-- Reads a level by name, short name or number, in any case. Lowering ASCII letters is enough: no other
capital lowers to a letter of these words. -/
def read? (text : String) : Option LogLevel :=
  match String.ofList (text.toList.map Char.toLower) with
  | "off" | "none" | "0" => some off
  | "error" | "err" | "1" => some error
  | "warn" | "warning" | "2" => some warn
  | "info" | "3" => some info
  | "debug" | "4" => some debug
  | "trace" | "5" => some trace
  | _ => none

end LogLevel

structure Settings where
  maxNestingDepth : Nat := 64
  /-- Stop at warnings. -/
  warningsAsErrors : Bool := false
  /-- Go on after errors that allow it. -/
  recoverErrors : Bool := false
  logLevel : LogLevel := .warn
deriving DecidableEq, Repr

inductive SettingsError where
  | noNesting
  | loggerInstalled
deriving DecidableEq, Repr

def SettingsError.message : SettingsError → String
  | noNesting => "invalid configuration for 'max_nesting_depth': must be at least 1"
  | loggerInstalled =>
    "failed to install tracing subscriber: a global default trace dispatcher has already been set"

namespace Settings

/-- At least one level of nesting must be allowed. -/
def validate (s : Settings) : Except SettingsError Unit :=
  if s.maxNestingDepth = 0 then .error .noNesting else .ok ()

def build (s : Settings) : Except SettingsError Settings := do
  s.validate
  return s

def policy (s : Settings) : Policy := ⟨s.warningsAsErrors, s.recoverErrors⟩

/-- Installs the logger of the process, which can be done once. The flag tells whether one is installed. -/
def installLogger (_ : Settings) (installed : Bool) : Except SettingsError Unit × Bool :=
  (if installed then .error .loggerInstalled else .ok (), true)

/-- Reads a switch in any of its spellings and any case. Lowering ASCII letters is enough here too. -/
def readSwitch? (text : String) : Option Bool :=
  match String.ofList (text.toList.map Char.toLower) with
  | "true" | "1" | "yes" | "on" => some true
  | "false" | "0" | "no" | "off" => some false
  | _ => none

/-- The numbers of levels that can be written are those below this limit. -/
def levelLimit : Nat := UInt64.size

/-- The settings of an environment, which looks up the text of a variable, if it is set to a text. -/
def ofEnvironment (lookup : String → Option String) : Settings :=
  let defaults : Settings := {}
  { maxNestingDepth :=
      (((lookup "MAX_NESTING_DEPTH").bind (Decimal.readNat? levelLimit)).filter (0 < ·)).getD
        defaults.maxNestingDepth
    warningsAsErrors := ((lookup "WARNINGS_AS_ERRORS").bind readSwitch?).getD defaults.warningsAsErrors
    recoverErrors := ((lookup "RECOVER_ERRORS").bind readSwitch?).getD defaults.recoverErrors
    logLevel := ((lookup "LOG_LEVEL").bind LogLevel.read?).getD defaults.logLevel }

end Settings

end Independence
