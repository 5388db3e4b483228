import StepFlow.Shell.Reader
import StepFlow.Shell.Utility
import StepFlow.Table

/-! # Shell states

The state of a shell while it runs a script: its variables and arguments, its descriptors with what
was put out on them, and the files. A script goes on from one state to the next unless something
**jumps**: out of a loop, out of a function, or out of the shell altogether. -/

namespace StepFlow.Shell

open Text

/-- What a descriptor is open on. -/
inductive Channel where
  /-- Something that collects what is put out. -/
  | output (id : Nat)
  /-- Something that is read from front to end. -/
  | input (id : Nat)
  /-- The end of a file. -/
  | file (names : List String)
  /-- Nothing. -/
  | null
deriving Repr, DecidableEq

/-- A **variable**. -/
structure Variable where
  value : Octets
  exported : Bool := false
  constant : Bool := false
deriving Repr

/-- The search path of a shell that is given none. -/
def usualPath : Octets := "/usr/local/sbin:/usr/local/bin:/usr/sbin:/usr/bin:/sbin:/bin".toList

/-- The **state** of a shell. -/
structure State where
  files : Files
  bindings : Table Variable := {}
  /-- The name under which the shell was called, and its arguments. -/
  self : Octets := ['s', 'h']
  arguments : List Octets := []
  /-- The exit code of the last command, and of the last one whose output became part of a word. -/
  status : Nat := 0
  substituted : Option Nat := none
  /-- The line of the command that is run, and the builtin that is running. -/
  line : Nat := 1
  within : Octets := []
  descriptors : List (Nat × Channel) := [(0, .input 0), (1, .output 1), (2, .output 2)]
  /-- What was put out, the latest first. -/
  outputs : List (Nat × List Octets) := [(1, []), (2, [])]
  /-- What is left to be read. -/
  inputs : List (Nat × Octets) := [(0, [])]
  /-- The number for the next channel. -/
  nextId : Nat := 3
  functions : Table Command := {}
  /-- How many loops are running around the command that is run. -/
  loops : Nat := 0
  /-- The values to put back when the functions that are running return. -/
  frames : List (List (String × Option Variable)) := []
  /-- Whether a command that fails ends the shell. -/
  exitOnError : Bool := false
  /-- Whether a variable without a value is an error. -/
  strict : Bool := false
  /-- Whether patterns are left as they are. -/
  noGlob : Bool := false
  /-- Whether commands are told before they are run. -/
  tracing : Bool := false
  /-- Whether nothing is left to do for the shell after the command that is run, so that a program
  takes its place. -/
  last : Bool := true
  /-- What is to be run at a signal, and under zero what is to be run when the shell ends. -/
  traps : List (Nat × Octets) := []
  /-- The numbers of the commands that were run in the background with their exit codes, the latest
  first. -/
  jobs : List (Nat × Nat) := []
  /-- Which permissions new files do not get. -/
  mask : Nat := 0o22

/-- A **jump**: why a script does not go on with its next command. -/
inductive Jump where
  | exit
  /-- An error, which a builtin that is not special survives. -/
  | fault
  | leaveLoop (levels : Nat)
  | nextRound (levels : Nat)
  | leaveFunction
  | killed (signal : Nat)
deriving Repr, DecidableEq

/-- A step of a running script. -/
abbrev Run (α : Type) : Type := ExceptT Jump (StateM State) α

/-! ## Lists by number -/

/-- A list with the value for a number replaced or added. -/
def replace {α : Type} (id : Nat) (a : α) : List (Nat × α) → List (Nat × α)
  | [] => [(id, a)]
  | (k, b) :: rest => if k = id then (k, a) :: rest else (k, b) :: replace id a rest

/-- A list without the value for a number. -/
def dropKey {α : Type} (id : Nat) (l : List (Nat × α)) : List (Nat × α) := l.filter (·.1 ≠ id)

namespace State

/-! ## Variables -/

/-- The variable with a name. -/
def named? (p : State) (name : Octets) : Option Variable :=
  p.bindings.get? (String.ofList name)

/-- Assigns to a variable; one that is exported stays so. -/
def assign (p : State) (name value : Octets) : State :=
  let old := p.named? name
  let fresh : Variable := { value := value, exported := old.any (·.exported) }
  { p with bindings := p.bindings.set (String.ofList name) fresh }

/-- Takes a variable away. -/
def unset (p : State) (name : Octets) : State :=
  { p with bindings := ⟨p.bindings.entries.filter (·.1 ≠ String.ofList name)⟩ }

/-- The number that stands for the process. -/
def id : Nat := 4000

/-- The value of a parameter that has one value. -/
def parameter? (p : State) (name : Octets) : Option Octets :=
  match name with
  | ['#'] => some (toString p.arguments.length).toList
  | ['?'] => some (toString p.status).toList
  | ['$'] => some (toString id).toList
  | ['-'] => some []
  | ['!'] => p.jobs.head?.map fun j => (toString j.1).toList
  | ['0'] => some p.self
  | _ =>
    match natural? name with
    | some n => p.arguments[n - 1]?
    | none => (p.named? name).map (·.value)

/-- The characters that separate fields. -/
def separators (p : State) : Octets := ((p.named? ['I', 'F', 'S']).map (·.value)).getD
  [' ', '\t', '\n']

/-- Whether the search path leads to the directories that hold the utilities. -/
def findsPrograms (p : State) : Bool :=
  let path := ((p.named? "PATH".toList).map (·.value)).getD []
  let places := (path.splitOn ':').map fun d => (d.reverse.dropWhile (· == '/')).reverse
  places.contains "/bin".toList || places.contains "/usr/bin".toList

/-- What the programs that are called find in their environment. -/
def environment (p : State) : List (Octets × Octets) :=
  (p.bindings.entries.filter (·.2.exported)).map fun e => (e.1.toList, e.2.value)

/-- How the variables are seen by arithmetic. -/
def arithmetic : Arithmetic.Variables State where
  get p name := Arithmetic.numberOf ((p.parameter? name).getD [])
  set p name n := p.assign name (toString n).toList

/-! ## Descriptors -/

/-- What a descriptor is open on. -/
def channel? (p : State) (fd : Nat) : Option Channel := p.descriptors.lookup fd

/-- Opens a descriptor on a channel. -/
def connect (p : State) (fd : Nat) (c : Channel) : State :=
  { p with descriptors := replace fd c p.descriptors }

/-- Closes a descriptor. -/
def disconnect (p : State) (fd : Nat) : State :=
  { p with descriptors := dropKey fd p.descriptors }

/-- Puts something out on a channel that is open for that. -/
def putOn (p : State) (channel : Option Channel) (cs : Octets) : Option State :=
  match channel with
  | some (.output id) =>
    some { p with outputs := replace id (cs :: (p.outputs.lookup id).getD []) p.outputs }
  | some (.file names) => some { p with files := p.files.append names (Octets.toBytes cs) }
  | some .null => some p
  | some (.input _) | none => none

/-- Puts something out on a descriptor that is open for that. -/
def put (p : State) (fd : Nat) (cs : Octets) : Option State := p.putOn (p.channel? fd) cs

/-- What there is to read on a descriptor. -/
def unread (p : State) (fd : Nat) : Octets :=
  match p.channel? fd with
  | some (.input id) => (p.inputs.lookup id).getD []
  | _ => []

/-- Leaves something to be read on a descriptor. -/
def leave (p : State) (fd : Nat) (cs : Octets) : State :=
  match p.channel? fd with
  | some (.input id) => { p with inputs := replace id cs p.inputs }
  | _ => p

/-- Opens a descriptor on something to be read. -/
def feed (p : State) (fd : Nat) (cs : Octets) : State :=
  { p with nextId := p.nextId + 1, inputs := (p.nextId, cs) :: p.inputs }.connect fd
    (.input p.nextId)

/-- Everything that was put out on a channel. -/
def collected (p : State) (id : Nat) : Octets :=
  ((p.outputs.lookup id).getD []).reverse.flatten

/-- The working directory. -/
def workingDirectory (p : State) : Octets := Octets.ofString ("/" ++ "/".intercalate p.files.cwd)

/-- The variables that a shell sets by itself. -/
def ownVariables : List (String × String) :=
  [("IFS", " \t\n"), ("OPTIND", "1"), ("PS1", "# "), ("PS2", "> "), ("PS4", "+ ")]

/-- The variables of a shell that starts with some variables from outside: of those that it sets by
itself only the search path can come from there. -/
def startVariables (p : State) (outside : Table Variable) : Table Variable :=
  let own := ownVariables.foldl (fun (t : Table Variable) e =>
    t.set e.1 { value := e.2.toList }) outside
  let own := if own.contains "PATH" then own else own.set "PATH" { value := usualPath }
  own.set "PWD" { value := p.workingDirectory, exported := true }

end State

/-! ## Telling what goes wrong -/

/-- Tells something on the descriptor for errors. -/
def warn (words : Octets) : Run Unit :=
  modify fun p => (p.put 2 words).getD p

/-- Tells an error of the shell, with its name, the line, and the builtin that is running. -/
def complain (words : String) : Run Unit := do
  let p ← get
  let place := if p.within.isEmpty then [] else p.within ++ [':', ' ']
  warn (p.self ++ Octets.ofString (": " ++ toString p.line ++ ": ") ++ place ++
    Octets.ofString (words ++ "\n"))

/-- Sets the exit code. -/
def setStatus (n : Nat) : Run Unit := modify fun p => { p with status := n }

/-- Tells an error and gives up what is being done. -/
def abort {α : Type} (words : String) : Run α := do
  complain words
  setStatus 2
  throw .fault

/-- A fault as it is told where something is to be opened. -/
def openWords (creating : Bool) (f : FileFault) : String :=
  match f with
  | .notFound | .notADirectory => if creating then "Directory nonexistent" else "No such file"
  | f => f.words

/-! ## Fields -/

/-- What a part of a word expands to, piece by piece. -/
inductive Piece where
  /-- A character: whether it is quoted, and whether fields may be split at it. -/
  | char (c : Char) (quoted splits : Bool)
  /-- That there is a field although it may be empty. -/
  | mark
  /-- That a field ends here. -/
  | cut
deriving Repr, DecidableEq

/-- The pieces of a text. -/
def pieces (quoted splits : Bool) (cs : Octets) : List Piece :=
  let body := cs.map fun c => Piece.char c quoted (splits && !quoted)
  if quoted then .mark :: body else body

/-- The text of pieces that are not split. -/
def joined (ps : List Piece) : Octets :=
  ps.filterMap fun
    | .char c _ _ => some c
    | .mark => none
    | .cut => some ' '

/-- The characters of pieces, with whether they are quoted. -/
def marked (ps : List Piece) : List (Char × Bool) :=
  ps.filterMap fun
    | .char c q _ => some (c, q)
    | .mark => none
    | .cut => some (' ', false)

/-- How far splitting has got: the fields so far, the one that is open, and whether a blank has just
ended one; all come last first. -/
structure Splitting where
  done : List (List (Char × Bool)) := []
  current : Option (List (Char × Bool)) := none
  blankEnded : Bool := false

/-- Ends the open field. -/
def Splitting.close (s : Splitting) : Splitting :=
  match s.current with
  | some f => { s with done := f.reverse :: s.done, current := none }
  | none => s

/-- Goes on by a piece. -/
def Splitting.step (separators : Octets) (s : Splitting) : Piece → Splitting
  | .mark => { s with current := some (s.current.getD []), blankEnded := false }
  | .cut => { s.close with blankEnded := false }
  | .char c quoted splits =>
    if splits && separators.contains c then
      if c == ' ' || c == '\t' || c == '\n' then
        if s.current.isSome then { s.close with blankEnded := true } else s
      else if s.current.isSome then { s.close with blankEnded := false }
      else if s.blankEnded then { s with blankEnded := false }
      else { s with done := [] :: s.done }
    else { s with current := some ((c, quoted) :: s.current.getD []), blankEnded := false }

/-- The fields of pieces. -/
def fieldsOf (separators : Octets) (ps : List Piece) : List (List (Char × Bool)) :=
  (ps.foldl (Splitting.step separators) {}).close.done.reverse

/-! ## Names that match -/

/-- The parts of a field between slashes. -/
def slashParts : List (Char × Bool) → List (List (Char × Bool))
  | [] => [[]]
  | c :: rest =>
    match slashParts rest with
    | f :: fs => if c.1 == '/' then [] :: f :: fs else (c :: f) :: fs
    | [] => [[c]]

/-- The paths that match the parts of a field, going on from a path. -/
def matching (files : Files) : List (List (Char × Bool)) → Octets → List Octets
  | [], path => [path]
  | part :: rest, path =>
    let pattern := Glob.parse part
    let join (name : Octets) : Octets :=
      if rest.isEmpty then path ++ name else path ++ name ++ ['/']
    if !Glob.isWild pattern then
      let name := part.map (·.1)
      let next := path ++ name
      if rest.isEmpty && !name.isEmpty then
        match files.locate (shown next) with
        | .ok ⟨_, some _⟩ => [next]
        | _ => []
      else matching files rest (join name)
    else
      let here := if path.isEmpty then ['.'] else path
      match files.locate (shown here) with
      | .ok ⟨_, some (.directory entries)⟩ =>
        let names := (entries.map fun e => Octets.ofString e.1).filter fun n =>
          Glob.isMatch pattern n &&
            (n.head? != some '.' || (part.head?.map (·.1)) == some '.')
        (names.mergeSort Octets.isAtMost).flatMap fun n => matching files rest (join n)
      | _ => []

/-- What a field becomes: the paths that match it, or itself where it is no pattern or nothing
matches. -/
def globbed (p : State) (field : List (Char × Bool)) : List Octets :=
  let plain := field.map (·.1)
  if p.noGlob || !Glob.isWild (Glob.parse field) then [plain]
  else
    match matching p.files (slashParts field) [] with
    | [] => [plain]
    | paths => paths

end StepFlow.Shell
