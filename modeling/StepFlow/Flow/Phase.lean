import StepFlow.Flow.Basic

/-! # Phases and precedence

Every step has a **start** and a **finish**, and some of these phases must come before others:

* a step starts before it finishes;
* the target of a dependency finishes before the source starts;
* a group starts before its children and finishes after them.

A flow can be scheduled when the phases can be ranked so that each comes strictly after those it
must follow. A cycle of dependencies, a cycle of nesting, and a dependency that crosses the borders
of groups so that it waits on itself are all the same obstacle, a cycle of phases.

Main statements: `Precedence` lists the constraints, `Ranking` says what a rank function has to do,
and `schedulable` decides whether there is one by taking away, round after round, the phases that
nothing left must precede. -/

namespace StepFlow

/-- A **phase** is the start or the finish of a step. -/
inductive Phase where
  | start (step : Name)
  | finish (step : Name)
deriving Repr, DecidableEq

/-- The parts of a flow that constrain when its steps run. -/
structure Precedence where
  /-- The names of the steps. -/
  names : List Name
  /-- Who is a direct member of which group: child and group. -/
  members : List (Name × Name)
  /-- Who waits for whom: source and target. -/
  waits : List (Name × Name)

namespace Precedence

/-- The phases of all steps. -/
def phases (p : Precedence) : List Phase := p.names.flatMap fun n => [.start n, .finish n]

/-- The phases that must come directly before a phase. -/
def before (p : Precedence) : Phase → List Phase
  | .start n =>
    ((p.waits.filter (·.1 = n)).map fun w => Phase.finish w.2) ++
      (p.members.filter (·.1 = n)).map fun m => Phase.start m.2
  | .finish n => .start n :: (p.members.filter (·.2 = n)).map fun m => Phase.finish m.1

/-- A **ranking** puts every phase strictly after those that must come before it. -/
def Ranking (p : Precedence) (rank : Phase → Nat) : Prop :=
  ∀ v ∈ p.phases, ∀ u ∈ p.before v, rank u < rank v

/-! ## Elimination in rounds -/

/-- The phases whose predecessors have all been taken away. -/
def free (waiting : List (Phase × List Phase)) : List Phase :=
  (waiting.filter (·.2.isEmpty)).map (·.1)

/-- What is left when the free phases are taken away. -/
def withoutFree (waiting : List (Phase × List Phase)) : List (Phase × List Phase) :=
  let gone := free waiting
  (waiting.filter (!·.2.isEmpty)).map fun e => (e.1, e.2.filter (· ∉ gone))

theorem length_withoutFree_lt {waiting : List (Phase × List Phase)} (h : free waiting ≠ []) :
    (withoutFree waiting).length < waiting.length := by
  have found : ∃ e ∈ waiting, e.2.isEmpty = true := by
    cases hf : waiting.filter (·.2.isEmpty) with
    | nil => simp [free, hf] at h
    | cons e rest =>
      have : e ∈ waiting.filter (·.2.isEmpty) := by simp [hf]
      exact ⟨e, (List.mem_filter.1 this).1, (List.mem_filter.1 this).2⟩
  obtain ⟨e, he, hempty⟩ := found
  simp only [withoutFree, List.length_map]
  exact List.length_filter_lt_length_iff_exists.2 ⟨e, he, by simp [hempty]⟩

/-- Whether taking away free phases round after round takes all of them away. -/
def eliminates (waiting : List (Phase × List Phase)) : Bool :=
  if waiting.isEmpty then true
  else if _h : free waiting = [] then false
  else eliminates (withoutFree waiting)
termination_by waiting.length
decreasing_by exact length_withoutFree_lt _h

/-- Whether the phases can be ranked. -/
def schedulable (p : Precedence) : Bool :=
  eliminates (p.phases.map fun v => (v, p.before v))

end Precedence

/-- The constraints on the phases of a flow. -/
def Flow.precedence (f : Flow) : Precedence where
  names := f.names
  members := f.steps.filterMap fun s => s.group.map (s.name, ·)
  waits := f.dependencies.map fun d => (d.src, d.dst)

end StepFlow
