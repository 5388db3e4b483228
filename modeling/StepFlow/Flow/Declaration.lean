import StepFlow.Flow.Phase
import StepFlow.Text.Blank

/-! # Declarations

A flow is given by a list of **declarations** in any order: leaves, groups, memberships and
dependencies. `Flow.declare` checks them and assembles the flow, or names the first thing that is
wrong.

The checks run in four rounds, each over its declarations in order: names, memberships,
dependencies, and at last whether the phases can be ranked. Repeated memberships and dependencies
are fine; of several declarations of one dependency the result is soft only if all of them are. -/

namespace StepFlow

/-- One **declaration** of a flow. -/
inductive Declaration where
  /-- A leaf and what it does. -/
  | leaf (name : Name) (action : Action)
  /-- A group; its members are declared apart. -/
  | group (name : Name)
  /-- A step is a direct member of a group. -/
  | member (child group : Name)
  /-- A step waits for another one. -/
  | wait (dependency : Dependency)
deriving Repr, DecidableEq

/-- Why a list of declarations is refused. -/
inductive FlowError where
  | blankName
  | duplicateName (name : Name)
  | unknownMember (child group : Name)
  | unknownGroup (child group : Name)
  | notAGroup (child group : Name)
  | selfMember (group : Name)
  | twoGroups (child first second : Name)
  | unknownEnd (dependency : Dependency) (name : Name)
  | selfWait (name : Name)
  | cycle
deriving Repr, DecidableEq

/-- What is wrong, in words. -/
def FlowError.detail : FlowError → String
  | .blankName => "step names must not be empty"
  | .duplicateName n => "duplicate step name '" ++ n ++ "'"
  | .unknownMember c g => "unknown step '" ++ c ++ "' assigned to group '" ++ g ++ "'"
  | .unknownGroup c g => "step '" ++ c ++ "' assigned to unknown group '" ++ g ++ "'"
  | .notAGroup c g => "step '" ++ c ++ "' assigned to '" ++ g ++ "', which is not a group"
  | .selfMember g => "group '" ++ g ++ "' cannot contain itself"
  | .twoGroups c g h => "step '" ++ c ++ "' assigned to both '" ++ g ++ "' and '" ++ h ++ "'"
  | .unknownEnd d n => "dependency '" ++ d.text ++ "' references unknown step '" ++ n ++ "'"
  | .selfWait n => "step '" ++ n ++ "' cannot depend on itself"
  | .cycle => "cycle detected in process flow"

namespace Declaration

/-- The name and the kind that a declaration introduces; a group has no children yet. -/
def introduces? : Declaration → Option (Name × Kind)
  | .leaf n a => some (n, .leaf a)
  | .group n => some (n, .group [])
  | _ => none

/-- The membership that a declaration states. -/
def member? : Declaration → Option (Name × Name)
  | .member c g => some (c, g)
  | _ => none

/-- The dependency that a declaration states. -/
def wait? : Declaration → Option Dependency
  | .wait d => some d
  | _ => none

/-! ## The parts of a list of declarations -/

/-- The steps that are introduced, in order. -/
def introduced (ds : List Declaration) : List (Name × Kind) := ds.filterMap introduces?

/-- The memberships, in order. -/
def members (ds : List Declaration) : List (Name × Name) := ds.filterMap member?

/-- The dependencies, in order. -/
def waits (ds : List Declaration) : List Dependency := ds.filterMap wait?

/-! ## Names -/

/-- The first introduced name that is blank or was introduced before. -/
def checkNames (seen : List Name) : List (Name × Kind) → Except FlowError Unit
  | [] => .ok ()
  | (n, _) :: rest =>
    if Text.isAllBlank n then .error .blankName
    else if n ∈ seen then .error (.duplicateName n)
    else checkNames (n :: seen) rest

/-! ## Memberships -/

/-- The group that a name was put in. -/
def groupIn (members : List (Name × Name)) (n : Name) : Option Name :=
  (members.find? (·.1 = n)).map (·.2)

/-- What is wrong with one membership, given those before it. -/
def memberError? (kinds : List (Name × Kind)) (before : List (Name × Name)) (c g : Name) :
    Option FlowError :=
  if (Table.find? c kinds).isNone then some (.unknownMember c g)
  else
    match Table.find? g kinds with
    | none => some (.unknownGroup c g)
    | some (.leaf _) => some (.notAGroup c g)
    | some (.group _) =>
      if c = g then some (.selfMember g)
      else
        match groupIn before c with
        | some other => if other = g then none else some (.twoGroups c other g)
        | none => none

/-- The first membership that is wrong. -/
def checkMembers (kinds : List (Name × Kind)) (before : List (Name × Name)) :
    List (Name × Name) → Except FlowError Unit
  | [] => .ok ()
  | (c, g) :: rest =>
    match memberError? kinds before c g with
    | some e => .error e
    | none => checkMembers kinds (before ++ [(c, g)]) rest

/-! ## Dependencies -/

/-- What is wrong with one dependency. -/
def waitError? (kinds : List (Name × Kind)) (d : Dependency) : Option FlowError :=
  if (Table.find? d.src kinds).isNone then some (.unknownEnd d d.src)
  else if (Table.find? d.dst kinds).isNone then some (.unknownEnd d d.dst)
  else if d.src = d.dst then some (.selfWait d.src)
  else none

/-- The first dependency that is wrong. -/
def checkWaits (kinds : List (Name × Kind)) : List Dependency → Except FlowError Unit
  | [] => .ok ()
  | d :: rest =>
    match waitError? kinds d with
    | some e => .error e
    | none => checkWaits kinds rest

/-- One dependency comes **before** another: by source, then by target. -/
def Before (a b : Dependency) : Prop := a.src < b.src ∨ a.src = b.src ∧ a.dst < b.dst

instance (a b : Dependency) : Decidable (Before a b) :=
  inferInstanceAs (Decidable (a.src < b.src ∨ a.src = b.src ∧ a.dst < b.dst))

/-- Enters a dependency among others in order. If there is one with the same ends it takes this one
in, and is soft no longer unless this one is as well. -/
def enter (d : Dependency) : List Dependency → List Dependency
  | [] => [d]
  | e :: rest =>
    if e.ends = d.ends then { e with soft := e.soft && d.soft } :: rest
    else if Before d e then d :: e :: rest
    else e :: enter d rest

/-- Merges dependencies, one after the other. -/
def mergeWaits (ds : List Dependency) : List Dependency :=
  ds.foldl (fun merged d => enter d merged) []

end Declaration

/-! ## Assembling a flow -/

namespace Flow

open Declaration

/-- The introduced names that were put in a group, under their groups and in the order of their
introduction. -/
def childrenByGroup (kinds : List (Name × Kind)) (members : List (Name × Name)) :
    Table (List Name) :=
  .collect (kinds.filterMap fun e => (groupIn members e.1).map (·, e.1))

/-- The steps that introduced names become. Each group takes its children out of the table. -/
def makeSteps (members : List (Name × Name)) : Table (List Name) → List (Name × Kind) → List Step
  | _, [] => []
  | children, (n, .leaf action) :: rest =>
    { name := n, group := groupIn members n, kind := .leaf action } ::
      makeSteps members children rest
  | children, (n, .group _) :: rest =>
    { name := n, group := groupIn members n, kind := .group (children.listed n) } ::
      makeSteps members (children.erase n) rest

/-- The flow that a list of declarations describes, whether or not its phases can be ranked. -/
def assemble (ds : List Declaration) : Flow where
  steps :=
    (makeSteps (members ds) (childrenByGroup (introduced ds) (members ds))
      (introduced ds)).mergeSort fun a b => a.name ≤ b.name
  dependencies := mergeWaits (waits ds)

/-- The checks on names, memberships and dependencies, in this order. -/
def checkParts (ds : List Declaration) : Except FlowError Unit := do
  checkNames [] (introduced ds)
  checkMembers (introduced ds) [] (members ds)
  checkWaits (introduced ds) (waits ds)

/-- **The flow of a list of declarations**, or the first thing that is wrong with them. -/
def declare (ds : List Declaration) : Except FlowError Flow := do
  checkParts ds
  let flow := assemble ds
  if flow.precedence.schedulable then .ok flow else .error .cycle

end Flow

end StepFlow
