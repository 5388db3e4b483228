import StepFlow.Status

/-! # The decision rule

What to do with a step, read off the statuses of the step, of its group and of the steps it waits
for. The rule has no state of its own, so asking it again is always safe. -/

namespace StepFlow

/-- What to do with a step now. -/
inductive Directive where
  /-- Nothing: the step is decided already, or it is too early. -/
  | noop
  /-- Run it. -/
  | run
  /-- Do not run it, and let it end as failed. -/
  | skip
deriving Repr, DecidableEq

/-- How a directive is written. -/
def Directive.text : Directive → String
  | .noop => "NOOP"
  | .run => "RUN"
  | .skip => "SKIP"

/-- A dependency is **open** while its target has not ended. -/
def StatusTable.isOpen (t : StatusTable) (d : Dependency) : Bool := !(t.status d.dst).isTerminal

/-- A dependency is **broken** when it is hard and its target failed. -/
def StatusTable.isBroken (t : StatusTable) (d : Dependency) : Bool :=
  !d.soft && t.status d.dst == .failed

/-- Whether the group of a step, if there is one, is in progress. -/
def StatusTable.isReleased (t : StatusTable) (s : Step) : Bool :=
  match s.group with
  | none => true
  | some g => t.status g = .inProgress

/-- **The decision rule.** A step that no longer waits, whose group is not in progress, or that has
an open dependency gets nothing. Of the others those with a broken dependency are skipped and the
rest run. -/
def Flow.directive (f : Flow) (t : StatusTable) (s : Step) : Directive :=
  if t.status s.name ≠ .waiting then .noop
  else if !t.isReleased s then .noop
  else if (f.edgesFrom s.name).any t.isOpen then .noop
  else if (f.edgesFrom s.name).any t.isBroken then .skip
  else .run

end StepFlow
