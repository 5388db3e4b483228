import StepFlow.Shell.State

/-! # Arguments and tildes in words

The pieces that the use of a parameter stands for when it may mean all arguments at once, and the
home directories that tildes stand for. -/

namespace StepFlow.Shell

open Text

/-- Whether a word is all the arguments between double quotes, and what comes after it. -/
def quotedArguments? : List Part → Option (List Part)
  | .text [] true :: .parameter (.value ['@']) true :: rest => some rest
  | _ => none

/-- The pieces of all arguments. -/
def argumentPieces (quoted : Bool) (args : List Octets) : List Piece :=
  match args with
  | [] => []
  | a :: rest => pieces quoted true a ++ rest.flatMap fun b => .cut :: pieces quoted true b

/-- The pieces of a parameter that may stand for all arguments. -/
def parameterPieces (p : State) (name : Octets) (quoted : Bool) : Option (List Piece) :=
  match name with
  | ['@'] => some (argumentPieces quoted p.arguments)
  | ['*'] =>
    if quoted then
      let between := p.separators.take 1
      some (pieces true false (between.intercalate p.arguments))
    else some (argumentPieces false p.arguments)
  | _ => (p.parameter? name).map (pieces quoted true)

/-- The home directory that a tilde with a name stands for. -/
def home? (p : State) (name : Octets) : Option Octets :=
  if name.isEmpty then (p.named? "HOME".toList).map (·.value)
  else if name == "root".toList then some "/root".toList
  else none

/-- The parts that unquoted text becomes when a tilde at its front is replaced. More may come after
the text unless it `ends` here. -/
def tildeFront (p : State) (ends : Bool) (cs : Octets) : Word :=
  match cs with
  | '~' :: rest =>
    let name := rest.takeWhile (· != '/')
    let after := rest.drop name.length
    match (if after.isEmpty && !ends then none else home? p name) with
    | some home => [.text home true, .text after false]
    | none => [.text cs false]
  | _ => [.text cs false]

/-- A word with the tildes behind colons replaced. -/
def tildesInside (p : State) : Word → Word
  | [] => []
  | .text cs false :: rest =>
    let segments := cs.splitOn ':'
    let count := segments.length
    let here := segments.zipIdx.flatMap fun (segment, i) =>
      if i == 0 then [.text segment false]
      else .text [':'] false :: tildeFront p (i + 1 < count || rest.isEmpty) segment
    here ++ tildesInside p rest
  | part :: rest => part :: tildesInside p rest

/-- A word with the tilde at its front replaced by a home directory, and in an assignment also those
behind colons. -/
def tilde (assigning : Bool) (word : Word) : Run Word := do
  let p ← get
  match word with
  | .text cs false :: rest =>
    let first := if assigning then cs.takeWhile (· != ':') else cs
    let after : Word := if assigning then .text (cs.drop first.length) false :: rest else rest
    let front := tildeFront p (first.length < cs.length || rest.isEmpty) first
    return front ++ (if assigning then tildesInside p after else after)
  | _ => return if assigning then tildesInside p word else word

end StepFlow.Shell
