/-!
# Progress messages

Building an automaton reports what it does. A message is data: it is handed back with the result of
the step that it is about.
-/

namespace PatternAutomata

/-- How much a message matters. -/
inductive Severity where
  /-- Something was rejected. -/
  | debug
  /-- A step was completed. -/
  | trace
deriving DecidableEq

/-- A report about one step. -/
structure Message where
  severity : Severity
  text : String
deriving DecidableEq

end PatternAutomata
