import StepFlow.Shell.Run

/-! # Commands in shells of their own

A command is the text of a script. It is run by a shell of its own, in a directory, with variables
that come from outside and nothing to read, and it leaves behind what it put out, how it ended and
the files.

A shell is not even started where its directory is missing, where there is no shell on the search
path, or where what it is given holds a NUL or is too long. -/

namespace StepFlow.Shell

open Text

/-- How a command has ended. -/
inductive Ending where
  | exit (code : Nat)
  | killed (signal : Nat)
deriving Repr, DecidableEq

/-- What a command leaves behind. -/
structure Aftermath where
  /-- How it ended. -/
  ending : Ending
  /-- What it put out. -/
  out : Octets
  /-- What it put out as an error. -/
  err : Octets
  /-- The files after it. -/
  files : Files

/-- The variables that are set from outside. -/
def outerVariables : List (String × String) :=
  [("HOME", "/root"), ("PATH", String.ofList usualPath)]

/-- The most bytes that one text given to a shell may have. -/
def maxTextBytes : Nat := 131071

/-- Whether a text can be given to a shell. -/
def isGivable (s : String) : Bool := !s.toList.contains '\x00' && s.utf8ByteSize ≤ maxTextBytes

/-- Takes over a variable from outside; a name that is none in a shell is lost. -/
def takeOver (t : Table Variable) (name value : String) : Table Variable :=
  let entry := Octets.ofString (name ++ "=" ++ value)
  let name := entry.takeWhile (· != '=')
  if isName name then
    t.set (String.ofList name) { value := entry.drop (name.length + 1), exported := true }
  else t

/-- The shell that is to run a command, if it can be started. -/
def start? (command : String) (env : List (String × String)) (cwd : Option String)
    (files : Files) : Option State := do
  let inside ← (match cwd with
    | some dir => (files.enter dir).toOption
    | none => some files)
  guard (isGivable command && env.all fun e => isGivable (e.1 ++ "=" ++ e.2))
  let bindings := (outerVariables ++ env).foldl (fun t e => takeOver t e.1 e.2) {}
  let p : State := { files := inside, bindings := bindings }
  guard p.findsPrograms
  return { p with bindings := p.startVariables bindings }

/-- Runs a command in a shell that was started for it. -/
def State.conclude (p : State) (command : String) : Aftermath :=
  let act : Run Unit := do
    toEnd (runText maxSteps false (Octets.ofString command))
    finish maxSteps
  let (jumped, q) := act.run.run p
  let ending :=
    match jumped with
    | .error (.killed signal) => Ending.killed signal
    | _ => .exit q.status
  { ending := ending, out := q.collected 1, err := q.collected 2
    files := { q.files with cwd := p.files.cwd } }

end StepFlow.Shell
