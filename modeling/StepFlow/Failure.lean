import StepFlow.Coordinator.Basic
import StepFlow.Files
import StepFlow.Scenario.Plan
import StepFlow.Scenario.Reading
import StepFlow.Text.Duration

/-! # Failures

What can go wrong between a scenario in a file and the end of its run, and how it is told; and the
questions about a run that may have no answer. -/

namespace StepFlow

/-- Why a run was not or could not be brought to its end. -/
inductive Failure where
  | config (detail : String)
  | flow (error : FlowError)
  | stepNotFound (name : Name)
  | file (fault : FileFault)
  | document (error : ReadError)
  | noRuntime
  | tooManyWorkers
  | timedOut (limit : Text.Span)
deriving Repr, DecidableEq

namespace Failure

/-- How a failure is told. -/
def message : Failure → String
  | .config detail => "Configuration error: " ++ detail
  | .flow e => "Invalid process flow: " ++ e.detail
  | .stepNotFound n => "Step not found: " ++ n
  | .file fault => "IO error: " ++ fault.detail
  | .document e => "TOML parsing error: " ++ e.detail
  | .noRuntime => CreationError.noRuntime.detail
  | .tooManyWorkers => CreationError.tooManyWorkers.detail
  | .timedOut limit => "process flow did not complete within " ++ limit.text

/-- A coordinator that cannot be created fails the run. -/
def ofCreation : CreationError → Failure
  | .noWorkers => .config CreationError.noWorkers.detail
  | .noRuntime => .noRuntime
  | .tooManyWorkers => .tooManyWorkers

/-- A draft that is refused fails the run: for what is wrong with its flow, or with the rest. -/
def ofScenario : ScenarioError → Failure
  | .flow e => .flow e
  | e => .config e.detail

end Failure

namespace Coordinator

/-- The status of a step, if there is such a step. -/
def statusOf (c : Coordinator) (n : Name) : Except Failure Status :=
  if c.flow.contains n then .ok (c.status n) else .error (.stepNotFound n)

/-- The answer to waiting for the end for no longer than a time, which is over. -/
def answerWithin (c : Coordinator) (limit : Text.Span) : Except Failure Int :=
  match c.answer? with
  | some code => .ok code
  | none => .error (.timedOut limit)

end Coordinator

end StepFlow
