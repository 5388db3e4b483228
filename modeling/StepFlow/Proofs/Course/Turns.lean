import StepFlow.Coordinator.Turn

/-! # Posts and turns

The **post** of a leaf is where its worker and its executor stand, and it tells whether they have
something to do. A turn takes a task on from its post, and `WorkerTurn` and `ExecutorTurn` list the
ways in which it can: the calls that follow, the state after it, and all that holds before.

Main statements: `Coordinator.workerTurn_spec` and `Coordinator.executorTurn_spec`, that every turn
is one of these. What a turn keeps is read off the lists. -/

namespace StepFlow

/-! ## Posts -/

/-- The **post** of a leaf: the stage of its worker and the state of its execution. -/
abbrev Post := Option Stage × Option Execution

/-- Whether a worker has something to do, in a run that is stopped or not. -/
def Post.workerDue (stopped : Bool) : Post → Bool
  | (some (.dispatched _), _) | (some .granted, _) => true
  | (some .running, some (.ended _)) => true
  | (some .queued, _) | (some .running, _) => stopped
  | _ => false

/-- Whether an executor has something to do. -/
def Execution.isDue : Execution → Bool
  | .spawned | .resumed | .cancelled _ => true
  | .begun | .ended _ | .dropped => false

namespace Coordinator

/-- The post of a leaf. -/
def post (c : Coordinator) (n : Name) : Post := (c.stages.get? n, c.executions.get? n)

/-! ## Turns of workers -/

/-- **What the turn of a worker does**: the calls that follow and the state after it. -/
inductive WorkerTurn (c : Coordinator) (n : Name) : List Call → Coordinator → Prop where
  /-- There is nothing to do. -/
  | rest (idle : (c.post n).workerDue c.stopped = false) : WorkerTurn c n [] c
  /-- The leaf is to be skipped. -/
  | skip (here : c.stages.get? n = some (.dispatched true)) :
      WorkerTurn c n [.notify (.started n), .complete n skippedCode] (c.setStage n .done)
  /-- The run was stopped before the worker could ask for a permit. -/
  | leave (here : c.stages.get? n = some (.dispatched false)) (stopped : c.stopped = true) :
      WorkerTurn c n [.complete n skippedCode] (c.setStage n .done)
  /-- A permit is free and is taken, and the start of the leaf is announced. -/
  | take (here : c.stages.get? n = some (.dispatched false)) (running : c.stopped = false)
      (free : 0 < c.permits) :
      WorkerTurn c n [.notify (.started n), .launch n]
        ({ c with permits := c.permits - 1 }.setStage n .starting)
  /-- No permit is free, and the worker queues for one. -/
  | queue (here : c.stages.get? n = some (.dispatched false)) (running : c.stopped = false)
      (none : c.permits = 0) :
      WorkerTurn c n [] ({ c with waiters := c.waiters ++ [n] }.setStage n .queued)
  /-- The run was stopped while the worker queued. -/
  | unqueue (here : c.stages.get? n = some .queued) (stopped : c.stopped = true) :
      WorkerTurn c n [.complete n skippedCode]
        ({ c with waiters := c.waiters.erase n }.setStage n .done)
  /-- The run was stopped before the worker took up the permit that it was handed. -/
  | decline (here : c.stages.get? n = some .granted) (stopped : c.stopped = true) :
      WorkerTurn c n [.complete n skippedCode] (c.setStage n .done).giveBack
  /-- The permit that was handed over is taken up, and the start of the leaf is announced. -/
  | start (here : c.stages.get? n = some .granted) (running : c.stopped = false) :
      WorkerTurn c n [.notify (.started n), .launch n] (c.setStage n .starting)
  /-- The run was stopped while the executor was at work. -/
  | cut (here : c.stages.get? n = some .running) (stopped : c.stopped = true) :
      WorkerTurn c n [.complete n skippedCode] ((c.setStage n .done).cancel n).giveBack
  /-- The executor has ended. -/
  | finish {o : Outcome} (here : c.stages.get? n = some .running) (running : c.stopped = false)
      (ended : c.executions.get? n = some (.ended o)) :
      WorkerTurn c n [.complete n o.code] (c.setStage n .done).giveBack

/-- **Every turn of a worker is one of these.** -/
theorem workerTurn_spec (c : Coordinator) (n : Name) :
    WorkerTurn c n (c.workerTurn n).1 (c.workerTurn n).2 := by
  unfold workerTurn
  cases here : c.stages.get? n with
  | none => exact .rest (by rw [post, here]; rfl)
  | some s =>
    cases s with
    | dispatched skip =>
      cases skip with
      | true => exact .skip here
      | false =>
        simp only
        split
        · rename_i stopped
          exact .leave here stopped
        · rename_i running
          have running := Bool.eq_false_iff.2 running
          split
          · rename_i free
            exact .take here running free
          · exact .queue here running (by omega)
    | queued =>
      simp only
      split
      · rename_i stopped
        exact .unqueue here stopped
      · rename_i running
        exact .rest (by rw [post, here]; exact Bool.eq_false_iff.2 running)
    | granted =>
      simp only
      split
      · rename_i stopped
        exact .decline here stopped
      · rename_i running
        exact .start here (Bool.eq_false_iff.2 running)
    | running =>
      simp only
      split
      · rename_i stopped
        exact .cut here stopped
      · rename_i running
        have running := Bool.eq_false_iff.2 running
        split
        · rename_i o ended
          exact .finish here running ended
        · rename_i going
          -- the worker sleeps on while its execution has not ended by itself
          refine .rest ?_
          rw [post, here]
          cases he : c.executions.get? n with
          | none => exact running
          | some e =>
            cases e with
            | ended o => exact absurd he (going o)
            | spawned | begun | resumed | cancelled | dropped => exact running
    | starting | done => exact .rest (by rw [post, here]; rfl)

/-! ## Turns of executors -/

/-- **What the turn of an executor does** when it has an answer to give or not: the state after
it. -/
inductive ExecutorTurn (c : Coordinator) (n : Name) : Option Part → Coordinator → Prop where
  /-- There is nothing to do. -/
  | rest (idle : ∀ e, c.executions.get? n = some e → e.isDue = false) : ExecutorTurn c n none c
  /-- The execution begins. -/
  | begin (here : c.executions.get? n = some .spawned) :
      ExecutorTurn c n (some .opening) (c.begin n)
  /-- The execution that was released goes on. -/
  | goOn (here : c.executions.get? n = some .resumed) :
      ExecutorTurn c n (some .closing) (c.setExecution n .begun)
  /-- The execution that was cut short is dropped. -/
  | drop {begun : Bool} (here : c.executions.get? n = some (.cancelled begun)) :
      ExecutorTurn c n none (c.setExecution n .dropped)

/-- **Every turn of an executor is one of these.** -/
theorem executorTurn_spec (c : Coordinator) (n : Name) :
    ExecutorTurn c n (c.part? n) (match c.part? n with
      | some part => c.enter n part
      | none => c.executorTurn n) := by
  unfold part? executorTurn
  cases here : c.executions.get? n with
  | none => exact .rest fun e he => by rw [here] at he; cases he
  | some e =>
    cases e with
    | spawned => exact .begin here
    | resumed => exact .goOn here
    | cancelled begun => exact .drop here
    | begun | ended | dropped =>
      refine .rest fun e he => ?_
      rw [here] at he
      cases he
      rfl

end Coordinator

end StepFlow
