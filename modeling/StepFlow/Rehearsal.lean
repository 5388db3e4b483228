import StepFlow.Coordinator.Run

/-! # Rehearsals

A **rehearsal** runs a flow without running anything: every leaf has a **script** that says what its
executor would put out, whether it waits to be released in between, and how it ends. The requests of
a rehearsal are given in groups; after each group the run goes on until it is idle, and a **report**
says what has changed. -/

namespace StepFlow

/-- The **script** of a leaf; a leaf without one succeeds at once. -/
structure Script where
  /-- The lines it puts out first. -/
  lines : List String := []
  /-- Whether it then waits to be released. -/
  waits : Bool := false
  /-- How it ends. -/
  outcome : Outcome := .exit 0
deriving Repr, DecidableEq

/-- What a script does in a part of its execution. -/
def Script.burst (s : Script) : Part → Burst
  | .opening => { lines := s.lines, outcome := if s.waits then none else some s.outcome }
  | .closing => { lines := [], outcome := some s.outcome }

/-- What a **report** says: how a run has moved from one moment to a later one. -/
structure Report where
  /-- What every readable listener received, by number. -/
  events : List (Nat × List Event)
  /-- The steps with another status than before, with that status. -/
  changed : List (Name × Status)
  /-- The leaves that were invoked, in order. -/
  invoked : List Name
  /-- How many executions wait to be released. -/
  running : Nat
deriving Repr

namespace Report

/-- Puts events in the order of their steps; those of one step keep their order. -/
def byStep (events : List Event) : List Event :=
  events.mergeSort fun a b => a.step ≤ b.step

/-- The report on what happened between two states of a run. Workers that are woken by a stop have
no fixed order among each other, so where the run was stopped in between the events are ordered by
step. -/
def between (old new : Coordinator) : Report where
  events :=
    (Registry.newsSince old.registry new.registry).map fun news =>
      (news.1, if old.stopped == new.stopped then news.2 else byStep news.2)
  changed := new.statuses.snapshot.filter fun e => old.status e.1 ≠ e.2
  invoked := (new.invoked.take (new.invoked.length - old.invoked.length)).reverse
  running := new.waitingExecutions

end Report

/-- A **rehearsal**: a run whose executor follows scripts. -/
structure Rehearsal where
  /-- The run. -/
  run : Coordinator
  /-- The scripts, by leaf. -/
  scripts : Table Script := {}

namespace Rehearsal

/-- The script of a leaf. -/
def script (r : Rehearsal) (n : Name) : Script := (r.scripts.get? n).getD {}

/-- The executor of a rehearsal follows the scripts. -/
def executor (r : Rehearsal) : Executor Unit := fun part n w => ((r.script n).burst part, w)

/-- Whether a request is of any use: a leaf that never waits cannot be released. -/
def accepts (r : Rehearsal) : Request → Bool
  | .release n => (r.script n).waits
  | .start | .stop => true

/-- Carries out the requests that are of use, one after the other, and then goes on until the run is
idle. -/
def play (r : Rehearsal) (requests : List Request) : Report × Rehearsal :=
  let asked := (requests.filter r.accepts).foldl Coordinator.request r.run
  let idle := (asked.runUntilIdle r.executor ()).1
  (.between r.run idle, { r with run := idle })

end Rehearsal

end StepFlow
