import StepFlow.Shell.State

/-! # Jumps and copies of the state

What is done around a step of a running script: something that happens even if the step jumps, and a
copy of the state on which the step runs, so that only part of what it changes is kept. -/

namespace StepFlow.Shell

open Text

/-- Does something and then something else, whether or not the first jumps. -/
def ending {α : Type} (act : Run α) (after : Run Unit) : Run α := do
  try
    let a ← act
    after
    return a
  catch jump => do
    after
    throw jump

/-- Does something to its end: only a signal goes further. -/
def toEnd (act : Run Unit) : Run Unit := do
  try act
  catch
    | .killed signal => throw (.killed signal)
    | _ => pure ()

/-- Does something inside of one more loop. -/
def inLoop {α : Type} (act : Run α) : Run α := do
  modify fun p => { p with loops := p.loops + 1 }
  ending act (modify fun p => { p with loops := p.loops - 1 })

/-- Runs something on a copy of the state. What it put out, what it read and the files are kept, and
its exit code. -/
def apart (act : Run Unit) : Run Unit := do
  let outer ← get
  set { outer with traps := [], jobs := [], last := false }
  let jumped ← (do
    try
      act
      return none
    catch jump => return some jump)
  let inner ← get
  set { outer with
    files := { inner.files with cwd := outer.files.cwd }
    outputs := inner.outputs
    inputs := inner.inputs
    nextId := inner.nextId
    status := inner.status }
  match jumped with
  | some (.killed signal) => throw (.killed signal)
  | _ => return ()

/-- Runs something and gives what it put out. -/
def capture (act : Run Unit) : Run Octets := do
  let p ← get
  let id := p.nextId
  set { p with nextId := id + 1, outputs := (id, []) :: p.outputs }
  apart do
    modify fun p => p.connect 1 (.output id)
    act
  let p ← get
  set { p with outputs := dropKey id p.outputs }
  return p.collected id

end StepFlow.Shell
