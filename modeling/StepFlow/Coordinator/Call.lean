import StepFlow.Coordinator.Basic

/-! # Calls

Nothing schedules the steps from above. When a step ends, those who wait for it are evaluated and
its group is looked at, at once and on the spot, and whatever follows from that comes before
anything else goes on. What is still to be done on the spot is the **agenda**, a list of **calls**:
carrying out the first one changes the state and puts the calls that follow from it in front of the
rest.

So every moment inside such a cascade, a listener's reaction included, is a pair of an agenda and a
coordinator, and the cascade is a sequence of small steps. -/

namespace StepFlow

/-- A **call**: one thing left to do on the spot. -/
inductive Call where
  /-- Request a stop. -/
  | stop
  /-- Add a listener. -/
  | subscribe (listener : Listener)
  /-- Remove the listener with a number. -/
  | unsubscribe (number : Nat)
  /-- Tell an event to those who are registered now. -/
  | notify (event : Event)
  /-- Tell an event to one listener. -/
  | deliver (number : Nat) (event : Event)
  /-- Look at a step and commit it if it is its time. -/
  | evaluate (step : Name)
  /-- End a skipped group together with the steps below it that were claimed for that. -/
  | skip (group : Name) (claimed : List Step)
  /-- End a group if all its children have finished. -/
  | close (group : Name)
  /-- End a leaf with an exit code. -/
  | complete (step : Name) (code : Int)
  /-- Count a child of a group as finished. -/
  | childFinished (group : Name) (code : Int)
  /-- Count a step as finished. -/
  | countDown
  /-- Hand a leaf whose start was announced to its executor. -/
  | launch (step : Name)
  /-- Let an execution wait after a burst, or end it. -/
  | pause (step : Name) (outcome : Option Outcome)

namespace Coordinator

/-! ## What follows from the end of a step -/

/-- The calls that evaluate the roots of the flow. -/
def startCalls (c : Coordinator) : List Call := c.flow.roots.map fun s => .evaluate s.name

/-- What follows from the end of a step: the listeners are told, those who wait for it are evaluated
by name, its group counts it, and at last the run does. -/
def propagation (c : Coordinator) (n : Name) (code : Int) : List Call :=
  .notify (.completed n code) ::
    ((c.flow.edgesTo n).map fun d => Call.evaluate d.src) ++
    (match (c.flow.step? n).bind (·.group) with
      | some g => [.childFinished g code]
      | none => []) ++
    [.countDown]

/-! ## Committing a step -/

/-- Claims those of some steps that wait: the claimed ones in order, and the table after that. -/
def claimAll : List Step → StatusTable → List Step × StatusTable
  | [], t => ([], t)
  | s :: rest, t =>
    match t.claim? s.name with
    | none => claimAll rest t
    | some claimed =>
      let (others, last) := claimAll rest claimed
      (s :: others, last)

/-- Claiming leaves alone whoever is not among the steps. -/
theorem get?_claimAll {steps : List Step} {t : StatusTable} {n : Name}
    (other : n ∉ steps.map (·.name)) :
    (claimAll steps t).2.entries.get? n = t.entries.get? n := by
  induction steps generalizing t with
  | nil => rfl
  | cons s rest ih =>
    rw [List.map_cons, List.mem_cons, not_or] at other
    rw [claimAll]
    cases claim : t.claim? s.name with
    | none => exact ih other.2
    | some u =>
      rw [StatusTable.claim?] at claim
      split at claim
      · cases claim
        exact (ih other.2).trans (StatusTable.get?_set_of_ne (Ne.symm other.1) _)
      · cases claim

/-- Moves a step to in progress, whatever its status. -/
def commit (c : Coordinator) (s : Step) : Coordinator :=
  { c with statuses := c.statuses.set s.name .inProgress }

/-- Commits a step to run: a group announces itself, evaluates its roots and closes if nothing is
pending; a leaf gets a worker. -/
def commitRun (c : Coordinator) (s : Step) : List Call × Coordinator :=
  let c := c.commit s
  if s.isGroup then
    (.notify (.started s.name) ::
        (c.flow.rootsIn s.name).map (fun r => Call.evaluate r.name) ++ [.close s.name], c)
  else ([], c.dispatch s.name false)

/-- Commits a step to be skipped. All that waits below a group is claimed before the group itself
leaves its waiting, so nothing below it can pass for released. -/
def commitSkip (c : Coordinator) (s : Step) : List Call × Coordinator :=
  if s.isGroup then
    let (claimed, below) := claimAll (c.flow.below s.name) c.statuses
    ([.notify (.started s.name), .skip s.name claimed], { c with statuses := below }.commit s)
  else ([], (c.commit s).dispatch s.name true)

/-- Looks at a step and commits it if the decision rule says so. The table knows every step of the
flow from the start; a step that it did not know could not be moved. -/
def evaluate (c : Coordinator) (n : Name) : List Call × Coordinator :=
  match c.flow.step? n with
  | none => ([], c)
  | some s =>
    if c.statuses.knows s.name then
      match c.directive s with
      | .noop => ([], c)
      | .run => c.commitRun s
      | .skip => c.commitSkip s
    else ([], c)

/-- **What an evaluation does**: nothing, or it commits a step that it finds waiting. A group that
is skipped still waits when all below it is claimed, since `get?_claimAll` leaves it alone. -/
theorem evaluate_cases (c : Coordinator) (n : Name) :
    c.evaluate n = ([], c) ∨ ∃ s, c.flow.step? n = some s ∧ c.statuses.knows s.name = true ∧
      c.status s.name = .waiting ∧ (c.directive s = .run ∧ c.evaluate n = c.commitRun s ∨
        c.directive s = .skip ∧ c.evaluate n = c.commitSkip s) := by
  cases found : c.flow.step? n with
  | none => exact .inl (by rw [evaluate, found])
  | some s =>
    cases known : c.statuses.knows s.name with
    | false => exact .inl (by simp [evaluate, found, known])
    | true =>
      cases decided : c.directive s with
      | noop => exact .inl (by simp [evaluate, found, known, decided])
      | run =>
        exact .inr ⟨s, rfl, known, waiting_of_directive (by rw [decided]; decide),
          .inl ⟨decided, by simp [evaluate, found, known, decided]⟩⟩
      | skip =>
        exact .inr ⟨s, rfl, known, waiting_of_directive (by rw [decided]; decide),
          .inr ⟨decided, by simp [evaluate, found, known, decided]⟩⟩

section

variable {c : Coordinator} {s : Step} {n : Name} (found : c.flow.step? n = some s)

include found

theorem evaluate_of_noop (decided : c.directive s = .noop) : c.evaluate n = ([], c) := by
  simp only [evaluate, found, decided, ite_self]

variable (known : c.statuses.knows s.name = true)

include known

theorem evaluate_of_run (decided : c.directive s = .run) : c.evaluate n = c.commitRun s := by
  simp only [evaluate, found, known, decided, if_true]

theorem evaluate_of_skip (decided : c.directive s = .skip) : c.evaluate n = c.commitSkip s := by
  simp only [evaluate, found, known, decided, if_true]

end

/-! ## Groups -/

/-- Marks a group as bound to fail. -/
def markFailed (t : Table Progress) (g : Name) : Table Progress :=
  match t.get? g with
  | none => t
  | some p => t.set g { p with failed := true }

/-- Ends a skipped group: it and the claimed groups are bound to fail; the claimed groups announce
themselves, outer ones before inner ones; the claimed leaves end unannounced; then the groups
close from the inside out. -/
def skip (c : Coordinator) (g : Name) (claimed : List Step) : List Call × Coordinator :=
  let groups := claimed.filter (·.isGroup)
  let leaves := claimed.filter (!·.isGroup)
  (groups.reverse.map (fun s => Call.notify (.started s.name)) ++
      leaves.map (fun s => Call.complete s.name skippedCode) ++
      groups.map (fun s => Call.close s.name) ++ [.close g],
    { c with progress := (g :: groups.map (·.name)).foldl markFailed c.progress })

/-- Ends a group that is in progress and has no child pending: with `1` if it is bound to fail and
with `0` otherwise. -/
def close (c : Coordinator) (g : Name) : List Call × Coordinator :=
  match c.progress.get? g with
  | none => ([], c)
  | some p =>
    if c.status g = .inProgress ∧ p.pending = 0 then
      let code := if p.failed then skippedCode else 0
      (c.propagation g code, { c with statuses := c.statuses.set g (.ofExitCode code) })
    else ([], c)

/-- Counts a child of a group as finished, and then closes the group if it is done. -/
def childFinished (c : Coordinator) (g : Name) (code : Int) : List Call × Coordinator :=
  match c.progress.get? g with
  | none => ([.close g], c)
  | some p =>
    let p := { pending := p.pending - 1, failed := p.failed || code ≠ 0 }
    ([.close g], { c with progress := c.progress.set g p })

/-! ## Leaves -/

/-- Hands a leaf to its executor once its start was announced; if the announcement stopped the run,
the executor is not used. -/
def launch (c : Coordinator) (n : Name) : List Call × Coordinator :=
  if c.stages.get? n = some .starting then
    if c.stopped then ([.complete n skippedCode], (c.setStage n .done).giveBack)
    else ([], ((c.setStage n .running).setExecution n .spawned).wake (.executor n))
  else ([], c)

/-- What comes after a burst: with an outcome the execution ends and its worker is woken; without
one it waits, or goes on at once if it was released before. -/
def pause (c : Coordinator) (n : Name) (outcome : Option Outcome) : Coordinator :=
  if c.executions.get? n = some .begun then
    match outcome with
    | some o => (c.setExecution n (.ended o)).wake (.worker n)
    | none =>
      if n ∈ c.released then
        let c := c.setExecution n .resumed
        { c with released := c.released.erase n, ready := .executor n :: c.ready }
      else c
  else c

/-! ## Requests -/

/-- The first request of a stop wakes all workers that wait and evaluates the roots, which are
skipped now unless they were decided before. A second one changes nothing. -/
def stop (c : Coordinator) : List Call × Coordinator :=
  if c.stopped then ([], c)
  else (c.startCalls, { c with stopped := true, ready := c.ready ++ c.sleepers })

/-- The calls that a listener's reaction amounts to. -/
def reactionCalls (c : Coordinator) : Reaction → List Call
  | .start => c.startCalls
  | .stop => [.stop]
  | .add l => [.subscribe l]
  | .remove number => [.unsubscribe number]
  | .panic => []

/-- **Carries out a call**: the calls that follow from it, and the state after it. -/
def perform (c : Coordinator) : Call → List Call × Coordinator
  | .stop => c.stop
  | .subscribe l => ([], { c with registry := c.registry.add l })
  | .unsubscribe number => ([], { c with registry := c.registry.remove number })
  | .notify e => (c.registry.registered.map fun number => Call.deliver number e, c)
  | .deliver number e =>
    let (reactions, registry) := c.registry.receive number e
    (reactions.flatMap c.reactionCalls, { c with registry := registry })
  | .evaluate n => c.evaluate n
  | .skip g claimed => c.skip g claimed
  | .close g => c.close g
  | .complete n code =>
    (c.propagation n code, { c with statuses := c.statuses.set n (.ofExitCode code) })
  | .childFinished g code => c.childFinished g code
  | .countDown => ([], { c with remaining := c.remaining - 1 })
  | .launch n => c.launch n
  | .pause n outcome => ([], c.pause n outcome)

end Coordinator

end StepFlow
