import StepFlow.Text.Blank

/-! # Requirements

What a step waits for is written as the name of another step, and with a tilde in front of the name
when the wait is soft. Blanks around the whole and after the tilde do not count, and only one tilde
is ever taken off. -/

namespace StepFlow

/-- A **requirement**: the name of a step, and whether its failure is of no concern. -/
structure Requirement where
  /-- The name of the step that is waited for. -/
  name : String
  /-- Whether the step that waits runs although this one failed. -/
  soft : Bool
deriving Repr, DecidableEq

namespace Requirement

/-- The requirement that trimmed characters denote. -/
def ofTrimmed : List Char → Requirement
  | '~' :: rest => ⟨String.ofList (Text.trimChars rest), true⟩
  | cs => ⟨String.ofList cs, false⟩

/-- **Reads** a requirement. -/
def parse (s : String) : Requirement := ofTrimmed (Text.trimChars s.toList)

/-- A requirement as it is written without blanks. -/
def text (r : Requirement) : String := if r.soft then "~" ++ r.name else r.name

end Requirement

end StepFlow
