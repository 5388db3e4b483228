import StepFlow.Shell.Builtin

/-! # Programs

Which names are those of programs, where programs are found, and how a utility runs between the
descriptors and the files of a shell. -/

namespace StepFlow.Shell

open Text

/-- Runs a utility. -/
def runUtility (name : Octets) (utility : Job → Finished) (args : List Octets) : Run Unit := do
  let p ← get
  let r := utility
    { args := args, input := p.unread 0, files := p.files, environment := p.environment }
  let p := { p with files := { r.files with cwd := p.files.cwd }, status := r.status }
  set (if r.readInput then p.leave 0 [] else p)
  warn r.err
  match (← get).put 1 r.out with
  | some p => set p
  | none =>
    if !r.out.isEmpty then
      warn (Octets.ofString (shown name ++ ": write error: Bad file descriptor\n"))
      setStatus 1

/-- The name of a program without the directories that programs lie in. -/
def plainName (name : Octets) : Octets :=
  if "/bin/".toList.isPrefixOf name then name.drop 5
  else if "/usr/bin/".toList.isPrefixOf name then name.drop 9
  else name

/-- Whether there is a program with a name. -/
def isProgram (p : State) (name : Octets) : Bool :=
  let plain := plainName name
  let text := String.ofList plain
  let known := (utility? plain).isSome || wrapperNames.contains text ||
    ["[", "echo", "false", "kill", "printf", "pwd", "test", "true"].contains text
  known && (plain != name || p.findsPrograms)

/-- Tells that there is no such command. -/
def notFound (p : State) (name : Octets) : Run Unit := do
  let isFile :=
    match p.files.locate (shown name) with
    | .ok ⟨_, some _⟩ => name.contains '/'
    | _ => false
  complain (shown name ++ (if isFile then ": Permission denied" else ": not found"))
  setStatus (if isFile then 126 else 127)

end StepFlow.Shell
