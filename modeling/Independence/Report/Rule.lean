import Independence.Report.Reporter
/-!
# Handling rules

A handler can be given as a list of rules. The first rule that matches a diagnostic and is not used up
decides on it, be it by leaving the decision to the policy.
-/

namespace Independence

/-- A rule applies to the diagnostics that agree with each condition it states, a limited number of times if
it states that too. -/
structure Rule where
  code : Option String
  severity : Option String
  contains : Option String
  times : Option Nat
  decision : Option Decision
deriving DecidableEq, Repr

namespace Rule

/-- Whether `part` occurs in the text as a whole. -/
def occursIn (part : List Char) : List Char → Bool
  | [] => part.isEmpty
  | c :: text => part.isPrefixOf (c :: text) || occursIn part text

def accepts (r : Rule) (d : Diagnostic) : Bool :=
  r.code.all (· == d.code.text) && r.severity.all (· == d.severity.text) &&
    r.contains.all fun part => occursIn part.toList d.message.toList

/-- The place of the rule that decides on `d`, if the rules were used as often as `uses` says. -/
def deciding? (rules : List Rule) (uses : List Nat) (d : Diagnostic) : Option Nat :=
  (rules.zip uses).findIdx? fun (r, used) => r.accepts d && r.times.all (used < ·)

/-- How often each rule was used, given what was decided before, the last one first. -/
def uses (rules : List Rule) (earlier : List Diagnostic) : List Nat :=
  earlier.foldr
    (fun d counts =>
      match deciding? rules counts d with
      | some i => counts.modify i (· + 1)
      | none => counts)
    (rules.map fun _ => 0)

def handler (rules : List Rule) : Handler := fun earlier d =>
  (deciding? rules (uses rules earlier) d).bind fun i => rules[i]?.bind Rule.decision

end Rule

end Independence
