import StepFlow.Flow.Basic
import StepFlow.Shell.Spawn

/-! # Running a leaf

A leaf with a command runs it in a shell. What the command puts out is told line by line: first the
lines of its output, then those of its errors. With a log directory, the same lines go into a log of
their own for every step, which is empty when the command starts. A leaf without a command succeeds
without doing anything.

A line ends at a line feed; one carriage return before it belongs to the end. Something after the
last line feed is a line as well. Lines are text: from the first one on that is none, nothing more
of a stream is told, and the leaf fails. -/

namespace StepFlow

open Text

/-- Why a leaf could not be run to its end. -/
inductive LeafFault where
  | isGroup (step : Name)
  | notStarted (step : Name)
  | logDirectory (path : String)
  | logFile (path : String)
  | unreadableOutput (step : Name)
  | unreadableErrors (step : Name)
deriving Repr, DecidableEq

/-- What went wrong, in words. -/
def LeafFault.message : LeafFault → String
  | .isGroup n => "step '" ++ n ++ "' is a group and has no command"
  | .notStarted n => "spawning process for step '" ++ n ++ "'"
  | .logDirectory path => "creating log directory " ++ path
  | .logFile path => "creating log file " ++ path
  | .unreadableOutput n => "reading stdout of step '" ++ n ++ "'"
  | .unreadableErrors n => "reading stderr of step '" ++ n ++ "'"

/-! ## Logs -/

/-- The path of the log of a step in a log directory. -/
def logPath (dir : String) (n : Name) : String := Path.join dir (n ++ ".log")

/-- Makes the log of a step, empty: the names on the way to it, and the files with it. -/
def openLog (dir : String) (n : Name) (files : Files) :
    Except LeafFault (List String × Files) := do
  let made ← (files.makeDirectories dir).mapError fun _ => .logDirectory dir
  let path := logPath dir n
  (made.write path .empty).mapError fun _ => .logFile path

/-! ## Lines -/

/-- A line without the carriage return at its end. -/
def withoutReturn (line : Octets) : Octets :=
  if line.getLast? = some '\r' then line.dropLast else line

/-- The lines of what a command put out. -/
def linesPutOut (out : Octets) : List Octets :=
  let lines := Octets.lines out
  if out.getLast? = some '\n' then lines.map withoutReturn
  else lines.dropLast.map withoutReturn ++ lines.getLast?.toList

/-- The lines up to the first one that is no text, and whether all of them are text. -/
def readable : List Octets → List String × Bool
  | [] => ([], true)
  | line :: rest =>
    match line.toString? with
    | none => ([], false)
    | some s =>
      let (lines, all) := readable rest
      (s :: lines, all)

/-! ## Runs of a leaf -/

/-- What the run of a leaf has come to. -/
structure LeafRun where
  /-- The lines that were told. -/
  lines : List String := []
  /-- The exit code, or what went wrong. -/
  result : Except LeafFault Int
  /-- The files after it. -/
  files : Files

/-- The exit code that stands for an ending; one by a signal counts as `-1`. -/
def Shell.Ending.code : Shell.Ending → Int
  | .exit code => code
  | .killed _ => -1

/-- Runs the command of a leaf in the shell that was started for it. -/
def runCommand (n : Name) (command : String) (shell : Shell.State) (logDir : Option String)
    (files : Files) : LeafRun :=
  match logDir.mapM (openLog · n files) with
  | .error fault => { result := .error fault, files := files }
  | .ok log =>
    let opened := (log.map (·.2)).getD files
    let after := { shell with files := { opened with cwd := shell.files.cwd } }.conclude command
    let (outLines, outFine) := readable (linesPutOut after.out)
    let (errLines, errFine) := readable (linesPutOut after.err)
    let lines := outLines ++ errLines
    let logged := String.join (lines.map (· ++ "\n"))
    let left := { after.files with cwd := files.cwd }
    { lines := lines
      result :=
        if !outFine then .error (.unreadableOutput n)
        else if !errFine then .error (.unreadableErrors n)
        else .ok after.ending.code
      files :=
        match log with
        | some (names, _) => left.append names logged.toUTF8
        | none => left }

/-- The shell for the command of a leaf, if there is a command and the shell can be started. -/
def Action.shell? (a : Action) (files : Files) : Option Shell.State := do
  Shell.start? (← a.command) a.env a.cwd files

/-- **Runs a step by itself**, with or without a log directory. -/
def Step.run (s : Step) (logDir : Option String) (files : Files) : LeafRun :=
  match s.action? with
  | none => { result := .error (.isGroup s.name), files := files }
  | some a =>
    match a.command with
    | none => { result := .ok 0, files := files }
    | some command =>
      match a.shell? files with
      | none => { result := .error (.notStarted s.name), files := files }
      | some shell => runCommand s.name command shell logDir files

end StepFlow
