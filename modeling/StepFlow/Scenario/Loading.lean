import StepFlow.Failure

/-! # Loading scenarios

A scenario is loaded from a file: its text is read as a draft, a draft that does not name its
scenario is given the stem of the file's name, and at last the plan is made. -/

namespace StepFlow

/-- The text of a file. -/
def textOf (content : FileResult ByteArray) : Except Failure String :=
  match content with
  | .error fault => .error (.file fault)
  | .ok bytes =>
    match String.fromUTF8? bytes with
    | some s => .ok s
    | none => .error (.file .notText)

/-- Loads a draft from the content of the file at a path, with some parser for documents. -/
def Draft.loadWith (parse : DocumentParser) (path : String) (content : FileResult ByteArray) :
    Except Failure Draft := do
  let draft ← (Draft.ofTextWith parse (← textOf content)).mapError .document
  return draft.named (Path.fileStem? path)

/-- **Loads a draft** from the content of the file at a path. -/
def Draft.load (path : String) (content : FileResult ByteArray) : Except Failure Draft :=
  Draft.loadWith Toml.parse path content

/-- **Loads a plan** from the content of the file at a path. -/
def Plan.load (path : String) (content : FileResult ByteArray) : Except Failure Plan := do
  (← Draft.load path content).plan.mapError Failure.ofScenario

end StepFlow
