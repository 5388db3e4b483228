import StepFlow.Coordinator.Settle

/-! # Turns

What a task does in its **turn**, that is from when it is taken from the queue until it has to wait.

A worker is taken through its stages: it waits for a permit, announces the start of its leaf, waits
for the executor, gives the permit back and completes the leaf. A stop makes it complete the leaf
with `skippedCode` from whatever stage it is in. An executor begins or goes on with its next burst.

What an executor does is not part of the coordinator: `begin` and `resume` take the burst as an
argument, so whatever is said of them for every burst holds for every executor. -/

namespace StepFlow

/-- The **part** of an execution that an executor is asked for: what it does before it waits, or
what it does once it is released. -/
inductive Part where
  | opening
  | closing
deriving Repr, DecidableEq

/-- An **executor** answers with a burst when it is asked for a part of an execution. It may keep
and change a state of its own. -/
def Executor (ω : Type) : Type := Part → Name → ω → Burst × ω

namespace Coordinator

/-! ## Workers -/

/-- The turn of a worker. -/
def workerTurn (c : Coordinator) (n : Name) : List Call × Coordinator :=
  match c.stages.get? n with
  | some (.dispatched true) =>
    ([.notify (.started n), .complete n skippedCode], c.setStage n .done)
  | some (.dispatched false) =>
    if c.stopped then ([.complete n skippedCode], c.setStage n .done)
    else if c.permits > 0 then
      ([.notify (.started n), .launch n],
        { c with permits := c.permits - 1 }.setStage n .starting)
    else ([], { c with waiters := c.waiters ++ [n] }.setStage n .queued)
  | some .queued =>
    if c.stopped then
      ([.complete n skippedCode], { c with waiters := c.waiters.erase n }.setStage n .done)
    else ([], c)
  | some .granted =>
    if c.stopped then ([.complete n skippedCode], (c.setStage n .done).giveBack)
    else ([.notify (.started n), .launch n], c.setStage n .starting)
  | some .running =>
    if c.stopped then ([.complete n skippedCode], ((c.setStage n .done).cancel n).giveBack)
    else
      match c.executions.get? n with
      | some (.ended o) => ([.complete n o.code], (c.setStage n .done).giveBack)
      | _ => ([], c)
  | some .starting | some .done | none => ([], c)

/-! ## Executors -/

/-- The part that the executor of a leaf has to be asked for in its turn, if any. -/
def part? (c : Coordinator) (n : Name) : Option Part :=
  match c.executions.get? n with
  | some .spawned => some .opening
  | some .resumed => some .closing
  | _ => none

/-- The calls that a burst of an execution amounts to. -/
def burstCalls (n : Name) (b : Burst) : List Call :=
  b.lines.map (fun line => Call.notify (.output n line)) ++ [.pause n b.outcome]

/-- An execution begins: it counts as invoked and as active. -/
def begin (c : Coordinator) (n : Name) : Coordinator :=
  let c := { c with invoked := n :: c.invoked }.setExecution n .begun
  { c with peak := max c.peak c.activeExecutions }

/-- The state in which the burst of a part takes place. -/
def enter (c : Coordinator) (n : Name) : Part → Coordinator
  | .opening => c.begin n
  | .closing => c.setExecution n .begun

/-- The turn of an executor that has nothing to do any more; a cancelled one is dropped. -/
def executorTurn (c : Coordinator) (n : Name) : Coordinator :=
  match c.executions.get? n with
  | some (.cancelled _) => c.setExecution n .dropped
  | _ => c

/-! ## Tasks -/

/-- **The turn of a task**: the calls to settle and the state, executor included. -/
def turn {ω : Type} (x : Executor ω) (c : Coordinator) (w : ω) :
    Task → List Call × Coordinator × ω
  | .worker n =>
    let (calls, next) := c.workerTurn n
    (calls, next, w)
  | .executor n =>
    match c.part? n with
    | some part =>
      let (burst, w) := x part n w
      (burstCalls n burst, c.enter n part, w)
    | none => ([], c.executorTurn n, w)

end Coordinator

end StepFlow
