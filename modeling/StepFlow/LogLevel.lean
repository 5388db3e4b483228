import StepFlow.Text.Blank

/-! # Log levels

How much is logged. A level given on the command line counts before one given in the environment,
and where neither gives one it is `info`. -/

namespace StepFlow

/-- A **log level**, from the fewest messages to the most. -/
inductive LogLevel where
  | error
  | warn
  | info
  | debug
  | trace
deriving Repr, DecidableEq

namespace LogLevel

/-- All levels. -/
def all : List LogLevel := [error, warn, info, debug, trace]

/-- The name of a level. -/
def name : LogLevel → String
  | .error => "error"
  | .warn => "warn"
  | .info => "info"
  | .debug => "debug"
  | .trace => "trace"

/-- The level with a name. -/
def ofName? (s : String) : Option LogLevel := all.find? (·.name = s)

/-- The text in lower case. Only ASCII letters are changed: no character beyond ASCII has a lower
case that is a letter of a level's name. -/
def lower (s : String) : String := s.map Char.toLower

/-- The level that a setting of the environment denotes: a name in any case, also `warning`, with
blanks around it. -/
def ofSetting? (s : String) : Option LogLevel :=
  let s := lower (Text.trim s)
  if s = "warning" then some .warn else ofName? s

/-- **The level in force**, by the command line and by the environment. -/
def choose (flag : Option LogLevel) (setting : Option String) : LogLevel :=
  (flag.or (setting.bind ofSetting?)).getD .info

@[simp] theorem ofName?_name (l : LogLevel) : ofName? l.name = some l := by
  cases l <;> decide

end LogLevel

end StepFlow
