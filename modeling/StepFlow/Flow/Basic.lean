import StepFlow.Table

/-! # Flows

A **flow** is a set of steps with dependencies between them. A step is a **leaf**, which does
something when it runs, or a **group**, which releases its children. A dependency `src -> dst` makes
`src` wait for `dst`; a hard one also lets the failure of `dst` skip `src`, a soft one, written
`src -> ~dst`, does not.

The steps are kept in the order of their names and the dependencies in the order of source and
target, so every list that is read off a flow has one order. Names are compared by code point. -/

namespace StepFlow

/-! ## Steps and dependencies -/

/-- What a leaf does when it runs. -/
structure Action where
  /-- The shell command; a leaf without one succeeds at once. -/
  command : Option String := none
  /-- Variables added to the environment of the command, sorted by name. -/
  env : List (String × String) := []
  /-- The directory the command runs in. -/
  cwd : Option String := none
deriving Repr, DecidableEq, Inhabited

/-- A step is a leaf with an action or a group with its direct children in order. -/
inductive Kind where
  | leaf (action : Action)
  | group (children : List Name)
deriving Repr, DecidableEq

/-- A **step**, the unit that a flow schedules. -/
structure Step where
  /-- The name, unique in a flow. -/
  name : Name
  /-- The group the step is a direct member of. -/
  group : Option Name := none
  /-- What kind of step it is. -/
  kind : Kind
deriving Repr, DecidableEq

namespace Step

/-- Whether the step is a group. -/
def isGroup (s : Step) : Bool :=
  match s.kind with
  | .group _ => true
  | .leaf _ => false

/-- The direct children of a group; a leaf has none. -/
def children (s : Step) : List Name :=
  match s.kind with
  | .group children => children
  | .leaf _ => []

/-- The action of a leaf; a group has none. -/
def action? (s : Step) : Option Action :=
  match s.kind with
  | .group _ => none
  | .leaf action => some action

end Step

/-- A **dependency**: the source waits until the target has ended. -/
structure Dependency where
  /-- The step that waits. -/
  src : Name
  /-- The step that is waited for. -/
  dst : Name
  /-- Whether the source runs although the target failed. -/
  soft : Bool := false
deriving Repr, DecidableEq

/-- The **ends** of a dependency: its source and its target. -/
def Dependency.ends (d : Dependency) : Name × Name := (d.src, d.dst)

/-- A dependency is written `src -> dst`, and `src -> ~dst` when it is soft. -/
def Dependency.text (d : Dependency) : String :=
  d.src ++ " -> " ++ (if d.soft then "~" else "") ++ d.dst

/-! ## Flows -/

/-- A **flow**: its steps by name and its dependencies by source and target. -/
structure Flow where
  /-- All steps, groups included, sorted by name. -/
  steps : List Step := []
  /-- All dependencies, sorted by source and then by target. -/
  dependencies : List Dependency := []
deriving Repr, DecidableEq, Inhabited

namespace Flow

/-- The step with a name. -/
def step? (f : Flow) (n : Name) : Option Step := f.steps.find? (·.name = n)

/-- Whether a name belongs to the flow. -/
def contains (f : Flow) (n : Name) : Bool := (f.step? n).isSome

/-- The names of the steps, in order. -/
def names (f : Flow) : List Name := f.steps.map (·.name)

/-- The dependencies under their sources. -/
def bySource (f : Flow) : Table (List Dependency) :=
  .collect (f.dependencies.map fun d => (d.src, d))

/-- The dependencies under their targets. -/
def byTarget (f : Flow) : Table (List Dependency) :=
  .collect (f.dependencies.map fun d => (d.dst, d))

/-- What a step waits for, sorted by target. -/
def edgesFrom (f : Flow) (n : Name) : List Dependency := f.bySource.listed n

/-- Who waits for a step, sorted by source. -/
def edgesTo (f : Flow) (n : Name) : List Dependency := f.byTarget.listed n

/-- The direct children of a group; empty for a leaf and for an unknown name. -/
def childrenOf (f : Flow) (n : Name) : List Name := ((f.step? n).map Step.children).getD []

/-- The steps that can be evaluated as soon as the flow starts: those in no group and without
dependencies. -/
def roots (f : Flow) : List Step :=
  f.steps.filter fun s => s.group.isNone && (f.edgesFrom s.name).isEmpty

/-- Whether a step depends on a direct member of a group. -/
def dependsOnMember (f : Flow) (n g : Name) : Bool :=
  (f.edgesFrom n).any fun d => ((f.step? d.dst).bind (·.group)) = some g

/-- The steps that can be evaluated as soon as a group is released: its children, in order, that
depend on no other child of it. Such a child may still wait for a step outside the group. -/
def rootsIn (f : Flow) (g : Name) : List Step :=
  ((f.childrenOf g).filterMap f.step?).filter fun s => !f.dependsOnMember s.name g

/-! ## The steps below a group -/

/-- The steps below a group down to a nesting depth: for every child in order, what lies below it
and then the child itself. -/
def belowTo (f : Flow) : Nat → Name → List Step
  | 0, _ => []
  | depth + 1, g =>
    ((f.childrenOf g).filterMap f.step?).flatMap fun s =>
      (if s.isGroup then f.belowTo depth s.name else []) ++ [s]

/-- The steps strictly below a group, children before their own group. Nesting is never deeper than
the flow has steps. -/
def below (f : Flow) (g : Name) : List Step :=
  (f.belowTo f.steps.length g).filter (·.name ≠ g)

/-! ## Reading lemmas -/

theorem step?_name {f : Flow} {n : Name} {s : Step} (h : f.step? n = some s) : s.name = n := by
  simpa using List.find?_some h

theorem mem_of_step? {f : Flow} {n : Name} {s : Step} (h : f.step? n = some s) : s ∈ f.steps :=
  List.mem_of_find?_eq_some h

/-- What a step waits for is what has it as source, in order. -/
theorem edgesFrom_eq (f : Flow) (n : Name) :
    f.edgesFrom n = f.dependencies.filter (·.src = n) := by
  rw [edgesFrom, bySource, Table.listed_collect, List.filter_map, List.map_map]
  exact List.map_id _

/-- Who waits for a step is what has it as target, in order. -/
theorem edgesTo_eq (f : Flow) (n : Name) : f.edgesTo n = f.dependencies.filter (·.dst = n) := by
  rw [edgesTo, byTarget, Table.listed_collect, List.filter_map, List.map_map]
  exact List.map_id _

@[simp] theorem mem_edgesFrom {f : Flow} {n : Name} {d : Dependency} :
    d ∈ f.edgesFrom n ↔ d ∈ f.dependencies ∧ d.src = n := by
  simp [edgesFrom_eq]

@[simp] theorem mem_edgesTo {f : Flow} {n : Name} {d : Dependency} :
    d ∈ f.edgesTo n ↔ d ∈ f.dependencies ∧ d.dst = n := by
  simp [edgesTo_eq]

/-- A group is not below itself. -/
theorem notMem_below (f : Flow) (g : Name) : g ∉ (f.below g).map (·.name) := by
  simp [below]

/-- A dependency is listed with its source exactly when it is listed with its target. -/
theorem mem_edgesFrom_iff_mem_edgesTo {f : Flow} {d : Dependency} :
    d ∈ f.edgesFrom d.src ↔ d ∈ f.edgesTo d.dst := by
  simp

end Flow

end StepFlow
