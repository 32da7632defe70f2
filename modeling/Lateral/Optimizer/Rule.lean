import Lateral.Plan.Basic

/-!
# Transformation rules

A rule looks at nodes of one operator. Tried on a node, it may not apply, fail,
leave the node alone, or give a plan to put in its place. What it has to tell is
returned as log entries.
-/

namespace Lateral

/-- How much a log entry matters. -/
inductive LogLevel where
  | debug
  | info
  | warn
  | error
  deriving DecidableEq, Repr

/-- The name of a log level. -/
def LogLevel.text : LogLevel → String
  | .debug => "debug"
  | .info => "info"
  | .warn => "warn"
  | .error => "error"

/-- A message of the optimizer. -/
structure LogEntry where
  level : LogLevel
  message : String
  deriving DecidableEq, Repr

/-- The settings of an optimizer: the rule for field names, the most rule firings in one run, and
whether each transformed plan is validated. -/
structure Settings where
  caseRule : CaseRule
  maxFirings : UInt32
  validates : Bool
  deriving DecidableEq, Repr

/-- Case matters, runs end after 1024 firings, and transformed plans are validated. -/
def Settings.standard : Settings where
  caseRule := .sensitive
  maxFirings := 1024
  validates := true

/-- What came of applying a rule to a node: an error, nothing, or a plan for its place. -/
structure Attempt where
  log : List LogEntry
  outcome : Except Error (Option Plan)

/-- A transformation rule. It is only tried on nodes of its operator, and only where it applies. -/
structure Rule where
  name : String
  operator : Operator
  applies : Settings → Plan → Bool
  transform : Settings → Plan → Attempt

/-- Whether a rule is to be tried on a node. -/
def Rule.accepts (rule : Rule) (settings : Settings) (node : Plan) : Bool :=
  rule.operator == node.operator && rule.applies settings node

end Lateral
