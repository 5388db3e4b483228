import StepFlow.Launch

/-! # The program

Reads the scenario that the arguments ask for, launches it, prints what is printed and writes the
files that the run has made below the working directory. -/

namespace StepFlow

/-- A fault of a file as the system tells it. -/
def faultOf : IO.Error → FileFault
  | .permissionDenied .. => .permission
  | .inappropriateType .. => .isADirectory
  | .noSuchThing .. => .notADirectory
  | _ => .notFound

/-- What the program says where the arguments ask for no run. -/
def ArgumentError.reply : ArgumentError → String
  | .unknownArgument => "unexpected argument"
  | .invalidValue => "a value is missing or not possible"
  | .malformedValue => "a value is not a number"
  | .repeated => "an argument cannot be used more than once"
  | .unwantedValue => "a value that is not taken"
  | .help =>
    "Usage: procflow [--config PATH] [--log-level LEVEL] [--max-workers N] [--log-dir DIR] " ++
      "[--dry-run]"
  | .version => "procflow"

/-- Launches what the arguments ask for; the exit code. -/
def launched (l : CommandLine) : IO UInt32 := do
  let content : FileResult ByteArray ←
    try pure (.ok (← IO.FS.readBinFile l.config))
    catch e => pure (.error (faultOf e))
  match l.launch content { Files.usual with cwd := ["tmp"] } with
  | .ok done =>
    IO.print done.printed
    for (path, bytes) in done.files.listing do
      let above := (Path.parts path).dropLast
      if !above.isEmpty then IO.FS.createDirAll ("/".intercalate above)
      IO.FS.writeBinFile path bytes
    return UInt32.ofNat (done.code % 256).toNat
  | .error e =>
    for line in e.context.toList ++ [e.failure.message] do
      IO.eprintln ("procflow error: " ++ line)
    return 1

end StepFlow

open StepFlow

/-- The program. -/
def main (args : List String) : IO UInt32 := do
  match CommandLine.parse args with
  | .ok l => launched l
  | .error e =>
    if e = .help || e = .version then
      IO.println e.reply
      return 0
    else
      IO.eprintln ("error: " ++ e.reply)
      return 2
