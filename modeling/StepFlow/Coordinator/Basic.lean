import StepFlow.Directive
import StepFlow.Listener

/-! # The state of a run

A **coordinator** runs a flow. It keeps the status of every step, how far every group has got, the
listeners, and the pool of workers: every leaf that was committed has a worker, a worker needs a
permit to run its executor, and there are only so many permits.

Workers and executors are **tasks**. A task that has something to do stands in the queue of ready
tasks; tasks run one at a time, and each goes on until it has to wait. This module holds the state
and the moves that shift a task or a permit; what a task does when it runs is in
`StepFlow.Coordinator.Turn`. -/

namespace StepFlow

/-! ## Executors -/

/-- How an executor ends. -/
inductive Outcome where
  | exit (code : Int)
  | error
  | panic
deriving Repr, DecidableEq

/-- The exit code that stands for an outcome; one that is no exit counts as `-1`. -/
def Outcome.code : Outcome → Int
  | .exit code => code
  | .error | .panic => -1

/-- A **burst** is what an executor does between two waits: the lines it puts out and the outcome
if it ends there. -/
structure Burst where
  /-- The lines, in order. -/
  lines : List String := []
  /-- The outcome, unless the executor waits to be released. -/
  outcome : Option Outcome := some (.exit 0)
deriving Repr, DecidableEq

/-- Where the **execution** of a leaf stands. -/
inductive Execution where
  /-- It was handed out and has not begun. -/
  | spawned
  /-- It has begun and waits. -/
  | begun
  /-- It has begun and was released. -/
  | resumed
  /-- It has ended by itself. -/
  | ended (outcome : Outcome)
  /-- It is to be dropped; whether it had begun. -/
  | cancelled (begun : Bool)
  /-- It was dropped. -/
  | dropped
deriving Repr, DecidableEq

/-- Whether the execution has begun and is not over. -/
def Execution.isActive : Execution → Bool
  | .begun | .resumed | .cancelled true => true
  | _ => false

/-! ## Workers and groups -/

/-- Where the worker of a leaf stands. -/
inductive Stage where
  /-- It was dispatched; whether the leaf is to be skipped. -/
  | dispatched (skip : Bool)
  /-- It waits for a permit. -/
  | queued
  /-- It was handed a permit that it has not taken up. -/
  | granted
  /-- It holds a permit and announces the start of the leaf. -/
  | starting
  /-- It holds a permit and waits for its executor. -/
  | running
  /-- It is finished. -/
  | done
deriving Repr, DecidableEq

/-- Whether a worker in this stage wakes up at a stop. -/
def Stage.heedsStop : Stage → Bool
  | .queued | .granted | .running => true
  | _ => false

/-- How far a group has got. -/
structure Progress where
  /-- The children that have not finished. -/
  pending : Nat
  /-- Whether the group is bound to fail. -/
  failed : Bool := false
deriving Repr, DecidableEq

/-- A **task**: the worker or the executor of a leaf. -/
inductive Task where
  | worker (step : Name)
  | executor (step : Name)
deriving Repr, DecidableEq

/-- The exit code of a step that was skipped, or that was cut short by a stop. -/
def skippedCode : Int := 1

/-! ## The coordinator -/

/-- The **state of a run**. -/
structure Coordinator where
  /-- The flow that is run. -/
  flow : Flow
  /-- The status of every step. -/
  statuses : StatusTable
  /-- The progress of every group. -/
  progress : Table Progress
  /-- How many steps have not been counted as finished. -/
  remaining : Nat
  /-- Whether a stop was requested. -/
  stopped : Bool := false
  /-- The listeners. -/
  registry : Registry := {}
  /-- The tasks that are ready, the next one first. -/
  ready : List Task := []
  /-- The free permits. -/
  permits : Nat
  /-- The workers that wait for a permit, the first one first. -/
  waiters : List Name := []
  /-- Where every dispatched worker stands. -/
  stages : Table Stage := {}
  /-- Where every execution stands. -/
  executions : Table Execution := {}
  /-- The leaves with a release that came before they waited for it. -/
  released : List Name := []
  /-- The leaves whose executor has begun, the latest first. -/
  invoked : List Name := []
  /-- The highest number of executions that were active at once. -/
  peak : Nat := 0

/-- Why a coordinator cannot be created. -/
inductive CreationError where
  | noWorkers
  | noRuntime
  | tooManyWorkers
deriving Repr, DecidableEq

/-- What is wrong, in words. -/
def CreationError.detail : CreationError → String
  | .noWorkers => "max_workers must be >= 1 (got 0)"
  | .noRuntime => "coordinator must be created inside a tokio runtime"
  | .tooManyWorkers => "too many workers"

/-- The most permits that a pool can hold. -/
def maxPermits : Nat := 2305843009213693951

/-- The number of workers of a run for which none is given. -/
def defaultWorkers : Nat := 16

namespace Coordinator

/-- The coordinator of a flow before anything has happened. -/
def initial (flow : Flow) (workers : Nat) (registry : Registry := {}) : Coordinator where
  flow := flow
  statuses := .ofFlow flow
  progress :=
    ⟨(flow.steps.filter (·.isGroup)).map fun s => (s.name, { pending := s.children.length })⟩
  remaining := flow.steps.length
  registry := registry
  permits := workers

/-- The coordinator of a flow, or why there is none. -/
def create (flow : Flow) (workers : Nat) (hasRuntime : Bool := true) (registry : Registry := {}) :
    Except CreationError Coordinator :=
  if workers = 0 then .error .noWorkers
  else if !hasRuntime then .error .noRuntime
  else if workers > maxPermits then .error .tooManyWorkers
  else .ok (initial flow workers registry)

/-! ## Views -/

/-- The status of a step. -/
def status (c : Coordinator) (n : Name) : Status := c.statuses.status n

/-- How many executions are active. -/
def activeExecutions (c : Coordinator) : Nat :=
  (c.executions.entries.filter (·.2.isActive)).length

/-- How many executions have begun and wait to be released. -/
def waitingExecutions (c : Coordinator) : Nat :=
  (c.executions.entries.filter (·.2 = .begun)).length

/-- Whether every step was counted as finished. -/
def isFinished (c : Coordinator) : Bool := c.remaining = 0

/-- The answer to waiting for the end: nothing while the run goes on, then `1` if a step failed and
`0` otherwise. -/
def answer? (c : Coordinator) : Option Int :=
  if c.isFinished then some (if c.statuses.hasFailures then 1 else 0) else none

/-- Whether no task is ready. -/
def isIdle (c : Coordinator) : Bool := c.ready.isEmpty

/-- What to do with a step: after a stop, nothing runs any more. -/
def directive (c : Coordinator) (s : Step) : Directive :=
  match c.flow.directive c.statuses s with
  | .run => if c.stopped then .skip else .run
  | d => d

/-- A step that the rule decides on waits. -/
theorem waiting_of_directive {c : Coordinator} {s : Step} (h : c.directive s ≠ .noop) :
    c.status s.name = .waiting := by
  refine Decidable.byContradiction fun other => h ?_
  have decided : c.flow.directive c.statuses s = .noop := if_pos other
  rw [directive, decided]

/-! ## Ready tasks -/

/-- Puts a task at the end of the queue, unless it stands there. -/
def wake (c : Coordinator) (t : Task) : Coordinator :=
  if t ∈ c.ready then c else { c with ready := c.ready ++ [t] }

/-- The workers that a stop wakes up and that are not ready anyway, by name. -/
def sleepers (c : Coordinator) : List Task :=
  ((c.flow.names.filter fun n => ((c.stages.get? n).map Stage.heedsStop).getD false).map
    Task.worker).filter (· ∉ c.ready)

/-- Hands a committed leaf to a worker. -/
def dispatch (c : Coordinator) (n : Name) (skip : Bool) : Coordinator :=
  { c with stages := c.stages.set n (.dispatched skip) }.wake (.worker n)

/-! ## Permits -/

/-- Hands a permit to a worker that waits for one. -/
def grant (c : Coordinator) (n : Name) : Coordinator :=
  if c.stages.get? n = some .queued then
    { c with stages := c.stages.set n .granted }.wake (.worker n)
  else { c with permits := c.permits + 1 }

/-- Gives a permit back; the first worker that waits gets it. -/
def giveBack (c : Coordinator) : Coordinator :=
  match c.waiters with
  | [] => { c with permits := c.permits + 1 }
  | n :: rest => { c with waiters := rest }.grant n

/-- Moves a worker to a stage. -/
def setStage (c : Coordinator) (n : Name) (s : Stage) : Coordinator :=
  { c with stages := c.stages.set n s }

/-! ## Executions -/

/-- Moves the execution of a leaf to a state. -/
def setExecution (c : Coordinator) (n : Name) (e : Execution) : Coordinator :=
  { c with executions := c.executions.set n e }

/-- Cuts an execution short that is not over; it is dropped when its turn comes. -/
def cancel (c : Coordinator) (n : Name) : Coordinator :=
  match c.executions.get? n with
  | some .spawned => (c.setExecution n (.cancelled false)).wake (.executor n)
  | some .begun | some .resumed => (c.setExecution n (.cancelled true)).wake (.executor n)
  | _ => c

/-- Releases an execution that waits; a release that comes before is remembered, once. -/
def release (c : Coordinator) (n : Name) : Coordinator :=
  match c.executions.get? n with
  | some .begun => (c.setExecution n .resumed).wake (.executor n)
  | _ => if n ∈ c.released then c else { c with released := n :: c.released }

end Coordinator

end StepFlow
