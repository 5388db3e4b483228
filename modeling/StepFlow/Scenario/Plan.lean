import StepFlow.Coordinator.Basic
import StepFlow.Flow.Declaration
import StepFlow.Requirement
import StepFlow.Scenario.Draft

/-! # Scenario plans

A **plan** is a scenario that can be run: its name, its log directory, its number of workers, and
its flow. `Draft.plan` makes one from a draft, or says what is wrong with the draft.

The checks on a draft come in a fixed order, and the flow is declared after them: groups by name,
then steps by name, each with its membership and its requirements. -/

namespace StepFlow

/-- Why a draft is refused. -/
inductive ScenarioError where
  | empty
  | noWorkers
  | stepAndGroup (name : String)
  | emptyRequirement (name : String)
  | unknownRequirement (name target : String)
  | unknownGroup (name group : String)
  | flow (error : FlowError)
deriving Repr, DecidableEq

/-- What is wrong, in words. -/
def ScenarioError.detail : ScenarioError → String
  | .empty => "scenario must contain at least one [step.<name>] or [group.<name>] section"
  | .noWorkers => "[coordinator].max_workers must be >= 1 (got 0)"
  | .stepAndGroup n => "'" ++ n ++ "' is declared both as a step and as a group"
  | .emptyRequirement n => "'" ++ n ++ "' has an empty entry in `requires`"
  | .unknownRequirement n t => "'" ++ n ++ "' has unknown dependency '" ++ t ++ "' in `requires`"
  | .unknownGroup n g => "'" ++ n ++ "' refers to unknown group '" ++ g ++ "'"
  | .flow e => e.detail

/-- A **plan**: a scenario that can be run. -/
structure Plan where
  /-- The name of the scenario. -/
  name : String
  /-- The directory for the logs of the steps. -/
  logDir : Option String
  /-- The number of workers. -/
  workers : Nat
  /-- The flow. -/
  flow : Flow
deriving Repr

/-- The name of a scenario that was given none. -/
def defaultScenarioName : String := "scenario"

namespace Draft

/-! ## The checks -/

/-- There is a step or a group. -/
def checkSome (d : Draft) : Except ScenarioError Unit :=
  if d.steps.isEmpty && d.groups.isEmpty then .error .empty else .ok ()

/-- If a number of workers is given, it is not zero. -/
def checkWorkers (d : Draft) : Except ScenarioError Unit :=
  if d.workers = some 0 then .error .noWorkers else .ok ()

/-- No name is that of a step and of a group. -/
def checkNames (d : Draft) : Except ScenarioError Unit :=
  match d.steps.keys.find? d.groups.contains with
  | some n => .error (.stepAndGroup n)
  | none => .ok ()

/-- What is wrong with one requirement of a step or a group. -/
def requirementError? (d : Draft) (n entry : String) : Option ScenarioError :=
  let r := Requirement.parse entry
  if r.name.isEmpty then some (.emptyRequirement n)
  else if !d.declares r.name then some (.unknownRequirement n r.name)
  else none

/-- What is wrong with the group that a step or a group names. -/
def groupError? (d : Draft) (n : String) : Option String → Option ScenarioError
  | none => none
  | some g => if d.groups.contains g then none else some (.unknownGroup n g)

/-- The first thing that is wrong with the references of a step or a group: its requirements, then
its group. -/
def referenceError? (d : Draft) (n : String) (requirements : List String) (group : Option String) :
    Option ScenarioError :=
  (requirements.findSome? (d.requirementError? n)).or (d.groupError? n group)

/-- All steps and then all groups refer to what is declared. -/
def checkReferences (d : Draft) : Except ScenarioError Unit :=
  let inSteps := d.steps.entries.findSome? fun e =>
    d.referenceError? e.1 e.2.requirements e.2.group
  let inGroups := d.groups.entries.findSome? fun e =>
    d.referenceError? e.1 e.2.requirements e.2.group
  match inSteps.or inGroups with
  | some e => .error e
  | none => .ok ()

/-- **The checks on a draft**, apart from those on the flow. -/
def check (d : Draft) : Except ScenarioError Unit := do
  d.checkSome
  d.checkWorkers
  d.checkNames
  d.checkReferences

/-! ## The declarations -/

/-- The membership and the requirements of a step or a group. -/
def relations (n : String) (group : Option String) (requirements : List String) :
    List Declaration :=
  (match group with
    | some g => [.member n g]
    | none => []) ++
  requirements.map fun entry =>
    let r := Requirement.parse entry
    .wait { src := n, dst := r.name, soft := r.soft }

/-- The declarations that a group makes. -/
def groupDeclarations (n : String) (s : GroupSection) : List Declaration :=
  .group n :: relations n s.group s.requirements

/-- What a step does when it runs. -/
def action (s : StepSection) : Action where
  command := s.command
  env := s.env.entries
  cwd := s.cwd

/-- The declarations that a step makes. -/
def stepDeclarations (n : String) (s : StepSection) : List Declaration :=
  .leaf n (action s) :: relations n s.group s.requirements

/-- The declarations of the flow: groups first. -/
def declarations (d : Draft) : List Declaration :=
  (d.groups.entries.flatMap fun e => groupDeclarations e.1 e.2) ++
    d.steps.entries.flatMap fun e => stepDeclarations e.1 e.2

/-! ## The plan -/

/-- **The plan of a draft**, or the first thing that is wrong with it. -/
def plan (d : Draft) : Except ScenarioError Plan := do
  d.check
  let flow ← (Flow.declare d.declarations).mapError .flow
  return {
    name := d.name.getD defaultScenarioName
    logDir := d.logDir
    workers := d.workers.getD defaultWorkers
    flow := flow
  }

end Draft

end StepFlow
