import StepFlow.LogLevel

/-! # The command line

The arguments of the program are long flags. A flag that takes a value has it after an equals sign
or as the next argument; an argument that begins with a dash is never such a value. No flag may be
given twice, and there are no other arguments.

Arguments are taken one by one from the left. A value that stands in an argument of its own is
looked at when the next known flag comes up or when the arguments end, so an argument that is not
known at all is told of before a value in front of it that does not fit. -/

namespace StepFlow

/-- Why the arguments are refused, or what is asked for instead of a run. -/
inductive ArgumentError where
  /-- An argument is not known. -/
  | unknownArgument
  /-- A value is missing, or is none of those that the flag takes. -/
  | invalidValue
  /-- A value is not of the form that the flag takes. -/
  | malformedValue
  /-- A flag is given twice. -/
  | repeated
  /-- A flag that takes no value is given one. -/
  | unwantedValue
  /-- Help is asked for. -/
  | help
  /-- The version is asked for. -/
  | version
deriving Repr, DecidableEq

/-- What the arguments ask for. -/
structure CommandLine where
  /-- The path of the scenario. -/
  config : String := "procflow.toml"
  /-- The log level. -/
  logLevel : Option LogLevel := none
  /-- The number of workers, in place of that of the scenario. -/
  maxWorkers : Option Nat := none
  /-- The directory for logs, in place of that of the scenario. -/
  logDir : Option String := none
  /-- Whether the flow is shown and not run. -/
  dryRun : Bool := false
deriving Repr, DecidableEq

/-- A **flag** that takes a value. -/
inductive ValueFlag where
  | config
  | logLevel
  | maxWorkers
  | logDir
deriving Repr, DecidableEq

/-- A long flag. -/
inductive Flag where
  | valued (flag : ValueFlag)
  | dryRun
  | help
  | version
deriving Repr, DecidableEq

/-- The flag with a name. -/
def Flag.ofName? : String → Option Flag
  | "config" => some (.valued .config)
  | "log-level" => some (.valued .logLevel)
  | "max-workers" => some (.valued .maxWorkers)
  | "log-dir" => some (.valued .logDir)
  | "dry-run" => some .dryRun
  | "help" => some .help
  | "version" => some .version
  | _ => none

/-- The flag with a letter. -/
def Flag.ofLetter? : Char → Option Flag
  | 'h' => some .help
  | 'V' => some .version
  | _ => none

namespace CommandLine

/-! ## Values -/

/-- The largest count. -/
def maxCount : Nat := 18446744073709551615

/-- The count that a text denotes: digits, with a plus in front perhaps. -/
def count? (s : String) : Option Nat :=
  let digits :=
    match s.toList with
    | '+' :: rest => rest
    | cs => cs
  if digits.isEmpty || !digits.all Char.isDigit then none
  else
    let n := digits.foldl (fun n c => 10 * n + (c.toNat - '0'.toNat)) 0
    if n ≤ maxCount then some n else none

/-- Sets the value of a flag. -/
def set (l : CommandLine) (flag : ValueFlag) (value : String) : Except ArgumentError CommandLine :=
  match flag with
  | .config => .ok { l with config := value }
  | .logLevel =>
    match LogLevel.ofName? value with
    | some level => .ok { l with logLevel := some level }
    | none => .error .invalidValue
  | .maxWorkers =>
    match count? value with
    | some n => .ok { l with maxWorkers := some n }
    | none => .error .malformedValue
  | .logDir => if value.isEmpty then .error .invalidValue else .ok { l with logDir := some value }

/-! ## Arguments -/

/-- A flag with a value in an argument of its own that has not been looked at. -/
structure Pending where
  flag : ValueFlag
  value : Option String := none

/-- What was read so far. -/
structure Reading where
  /-- The values that were looked at. -/
  line : CommandLine := {}
  /-- The flags that were given. -/
  given : List Flag := []
  /-- The flag whose value was not looked at. -/
  pending : Option Pending := none

/-- Gives a flag its value, which must be there; a flag that has one may not get another. -/
def assign (r : Reading) (flag : ValueFlag) (value : Option String) :
    Except ArgumentError Reading :=
  match value with
  | none => .error .invalidValue
  | some v => do
    if .valued flag ∈ r.given then throw .repeated
    return { line := ← r.line.set flag v, given := .valued flag :: r.given }

/-- Looks at the value that was not looked at. -/
def resolve (r : Reading) : Except ArgumentError Reading :=
  match r.pending with
  | none => .ok r
  | some p => assign { r with pending := none } p.flag p.value

/-- Takes a known flag, with the text after its equals sign if there is one. -/
def takeFlag (r : Reading) (flag : Flag) (attached : Option String) :
    Except ArgumentError Reading :=
  match flag, attached with
  | .valued flag, some v => do assign (← resolve r) flag (some v)
  | .valued flag, none => do return { (← resolve r) with pending := some ⟨flag, none⟩ }
  | _, some _ => .error .unwantedValue
  | .help, none => do
    discard (resolve r)
    throw .help
  | .version, none => do
    discard (resolve r)
    throw .version
  | .dryRun, none => do
    let r ← resolve r
    if .dryRun ∈ r.given then throw .repeated
    return { r with line := { r.line with dryRun := true }, given := .dryRun :: r.given }

/-- Takes an argument that begins with two dashes, without them. -/
def takeLong (r : Reading) (text : List Char) : Except ArgumentError Reading :=
  let name := text.takeWhile (· ≠ '=')
  let attached :=
    match text.dropWhile (· ≠ '=') with
    | _ :: value => some (String.ofList value)
    | [] => none
  match Flag.ofName? (String.ofList name) with
  | some flag => takeFlag r flag attached
  | none => .error .unknownArgument

/-- Takes an argument that begins with one dash, without it: letters of which the first counts. -/
def takeShort (r : Reading) (letter : Char) : Except ArgumentError Reading :=
  match Flag.ofLetter? letter with
  | some flag => takeFlag r flag none
  | none => .error .unknownArgument

/-- Takes an argument that is no flag: the value of the flag before it, if that lacks one. -/
def takeValue (r : Reading) (text : String) : Except ArgumentError Reading :=
  match r.pending with
  | some ⟨flag, none⟩ => .ok { r with pending := some ⟨flag, some text⟩ }
  | _ => .error .unknownArgument

/-- Takes all arguments. Two dashes alone end the flags, and nothing may follow them. -/
def takeAll (r : Reading) : List String → Except ArgumentError CommandLine
  | [] => do return (← resolve r).line
  | arg :: rest =>
    match arg.toList, rest with
    | ['-', '-'], [] => do return (← resolve r).line
    | ['-', '-'], _ :: _ => .error .unknownArgument
    | '-' :: '-' :: text, rest => do takeAll (← takeLong r text) rest
    | '-' :: letter :: _, rest => do takeAll (← takeShort r letter) rest
    | _, rest => do takeAll (← takeValue r arg) rest

/-- **Reads the arguments** of the program. -/
def parse (args : List String) : Except ArgumentError CommandLine := takeAll {} args

end CommandLine

end StepFlow
