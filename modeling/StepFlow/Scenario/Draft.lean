import StepFlow.Catalog

/-! # Scenario drafts

A **draft** is a scenario as it stands in a file: sections whose entries are all optional, and
groups and steps under names that are free. Nothing is checked about it yet; see
`StepFlow.Scenario.Plan` for that. -/

namespace StepFlow

/-- The section of a group. -/
structure GroupSection where
  /-- The group around this one. -/
  group : Option String := none
  /-- What the group waits for, as requirements are written. -/
  requirements : List String := []
deriving BEq, Inhabited

/-- The section of a step. -/
structure StepSection where
  /-- The shell command. -/
  command : Option String := none
  /-- The group of the step. -/
  group : Option String := none
  /-- What the step waits for, as requirements are written. -/
  requirements : List String := []
  /-- Variables for the environment of the command. -/
  env : Catalog String := {}
  /-- The directory to run in. -/
  cwd : Option String := none
deriving BEq, Inhabited

/-- A **draft** of a scenario. -/
structure Draft where
  /-- The name of the scenario. -/
  name : Option String := none
  /-- The directory for the logs of the steps. -/
  logDir : Option String := none
  /-- The number of workers. -/
  workers : Option Nat := none
  /-- The groups by name. -/
  groups : Catalog GroupSection := {}
  /-- The steps by name. -/
  steps : Catalog StepSection := {}
deriving BEq, Inhabited

namespace Draft

/-- Whether a name is declared, as a step or as a group. -/
def declares (d : Draft) (n : String) : Bool := d.steps.contains n || d.groups.contains n

/-- The draft with a name given to the scenario, unless it has one. -/
def named (d : Draft) (n : Option String) : Draft := { d with name := d.name.or n }

end Draft

end StepFlow
