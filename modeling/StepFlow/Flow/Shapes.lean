import StepFlow.Flow.Declaration

/-! # Shapes of flows

Declarations of some flows of a regular shape, of any size where they have one. They serve to try
out a run. -/

namespace StepFlow.Shape

/-- The name of a leaf by number. -/
def leafName (i : Nat) : Name := "step_" ++ toString i

/-- A leaf that does nothing. -/
def leaf (n : Name) : Declaration := .leaf n {}

/-- A **chain**: every leaf but the first waits for the one before it. -/
def chain (size : Nat) : List Declaration :=
  (List.range size).flatMap fun i =>
    leaf (leafName i) ::
      (if i = 0 then [] else [.wait { src := leafName i, dst := leafName (i - 1) }])

/-- A **fan**: a sink that waits for leaves of which none waits. -/
def fanIn (size : Nat) : List Declaration :=
  leaf "sink" ::
    (List.range size).flatMap fun i =>
      [leaf (leafName i), .wait { src := "sink", dst := leafName i }]

/-- Leaves of which none waits. -/
def independent (size : Nat) : List Declaration :=
  (List.range size).map fun i => leaf (leafName i)

/-- Two leaves that wait for a third one, one of them softly. -/
def hardSoftFanout : List Declaration :=
  [leaf "A", leaf "B", leaf "C", .wait { src := "B", dst := "A" },
    .wait { src := "C", dst := "A", soft := true }]

end StepFlow.Shape
