import StepFlow.CommandLine
import StepFlow.Console
import StepFlow.Coordinator.Run
import StepFlow.Leaf
import StepFlow.Scenario.Loading

/-! # Launching a scenario

What the program does with its arguments: it loads a plan, lets the arguments override its number of
workers and its log directory, and then shows it or runs it. A run prints its events as they come
and a table of all statuses at its end; its exit code says whether a step failed.

Commands run in shells. A command takes its time: while it runs, everything goes on that can go on
without its end, and of several commands the one that was started first ends first. -/

namespace StepFlow

/-! ## Leaves as executions -/

/-- The execution of a leaf. A leaf without a command, or whose shell cannot be started, is over at
once. -/
def Flow.executor (f : Flow) (logDir : Option String) : Executor Files := fun part n files =>
  match f.step? n with
  | none => ({ outcome := some .error }, files)
  | some s =>
    let started := (s.action?.bind (·.shell? files)).isSome
    if part = .opening && started then ({ outcome := none }, files)
    else
      let run := s.run logDir files
      let outcome : Outcome :=
        match run.result with
        | .ok code => .exit code
        | .error _ => .error
      ({ lines := run.lines, outcome := some outcome }, run.files)

namespace Coordinator

/-- The leaf whose execution has waited the longest. -/
def firstWaiting? (c : Coordinator) : Option Name :=
  c.invoked.reverse.find? fun n => c.executions.get? n = some .begun

/-- Goes on until the run is idle and nothing waits, releasing up to some number of executions. -/
def runThrough {ω : Type} (x : Executor ω) : Nat → Coordinator → ω → Coordinator × ω
  | 0, c, w => c.runUntilIdle x w
  | n + 1, c, w =>
    let (idle, w) := c.runUntilIdle x w
    match idle.firstWaiting? with
    | none => (idle, w)
    | some leaf => runThrough x n (idle.request (.release leaf)) w

/-- Starts a run and goes on to its end. Every leaf is executed once at most, so there are no more
executions to release than steps. -/
def runToEnd {ω : Type} (x : Executor ω) (c : Coordinator) (w : ω) : Coordinator × ω :=
  (c.request .start).runThrough x c.flow.steps.length w

end Coordinator

/-! ## Launches -/

/-- What a launch leaves behind. -/
structure Launch where
  /-- The exit code. -/
  code : Int
  /-- What was printed. -/
  printed : String
  /-- The files after it. -/
  files : Files

/-- Why a launch failed before anything was printed. -/
structure LaunchFailure where
  failure : Failure
  /-- What was being done, where that is told. -/
  context : Option String := none

namespace CommandLine

/-- The plan with what the arguments override. -/
def override (l : CommandLine) (p : Plan) : Plan :=
  { p with workers := l.maxWorkers.getD p.workers, logDir := l.logDir.or p.logDir }

/-- Loads the plan that the arguments ask for from the content of its file. -/
def plan (l : CommandLine) (content : FileResult ByteArray) : Except LaunchFailure Plan :=
  match Plan.load l.config content with
  | .ok p => .ok (l.override p)
  | .error failure => .error ⟨failure, some ("loading scenario " ++ l.config)⟩

end CommandLine

/-- Runs a plan: its events are printed, and then the table of statuses. -/
def Plan.run (p : Plan) (files : Files) : Except LaunchFailure Launch :=
  match Coordinator.create p.flow p.workers true (Registry.add {} .channel) with
  | .error e => .error { failure := .ofCreation e }
  | .ok c =>
    let (done, files) := c.runToEnd (p.flow.executor p.logDir) files
    let events := (Registry.newsSince c.registry done.registry).flatMap (·.2)
    let lines := events.map Console.eventLine ++
      Console.statusTable p.name done.statuses.snapshot
    .ok { code := done.answer?.getD 1, printed := Console.unlines lines, files := files }

/-- **Launches** what the arguments ask for, given the content of the file that they name and the
files that commands find. -/
def CommandLine.launch (l : CommandLine) (content : FileResult ByteArray) (files : Files) :
    Except LaunchFailure Launch := do
  let p ← l.plan content
  if l.dryRun then
    return { code := 0, printed := Console.unlines (Console.planLines p), files := files }
  else p.run files

end StepFlow
