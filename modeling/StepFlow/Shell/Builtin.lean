import StepFlow.Shell.State

/-! # Builtins

The commands that belong to the shell and change its own state, apart from those that run further
commands. -/

namespace StepFlow.Shell

open Text

/-- Puts something out on standard output; a builtin that cannot fails. -/
def emit (builtin : String) (cs : Octets) : Run Unit := do
  match (← get).put 1 cs with
  | some p => set p
  | none =>
    if !cs.isEmpty then
      complain (builtin ++ ": I/O error")
      setStatus 1

/-- The number that a builtin is given, or another one where it is given none. -/
def numberArgument (args : List Octets) (otherwise : Nat) : Run Nat := do
  match args with
  | [] => return otherwise
  | a :: _ =>
    match natural? a with
    | some n => return n
    | none => abort ("Illegal number: " ++ shown a)

/-- The letters of the options at the front of some arguments, none but those allowed, and the
arguments after them. -/
def optionsOf (allowed : String) (args : List Octets) : Run (List Char × List Octets) := do
  let (options, rest) := letters args
  match options.find? (!allowed.toList.contains ·) with
  | some c => abort ("Illegal option -" ++ String.ofList [c])
  | none => return (options, rest)

/-! ## Signals -/

/-- The names of signals with their numbers. -/
def signals : List (String × Nat) :=
  [("EXIT", 0), ("HUP", 1), ("INT", 2), ("QUIT", 3), ("ILL", 4), ("TRAP", 5), ("ABRT", 6),
    ("BUS", 7), ("FPE", 8), ("KILL", 9), ("USR1", 10), ("SEGV", 11), ("USR2", 12), ("PIPE", 13),
    ("ALRM", 14), ("TERM", 15), ("CHLD", 17), ("CONT", 18), ("STOP", 19), ("TSTP", 20)]

/-- The number of a signal, given by a number or by a name with or without its front. -/
def signal? (cs : Octets) : Option Nat :=
  match natural? cs with
  | some n => some n
  | none =>
    let name := (String.ofList cs).toUpper
    (signals.find? fun s => s.1 == name || "SIG" ++ s.1 == name).map (·.2)

/-- Whether a signal ends a process that does not care for it. -/
def isDeadly (n : Nat) : Bool := n != 0 && n != 17 && n != 18 && n != 19 && n != 20

/-- What is told about a program that a signal has ended. -/
def signalWords : List (Nat × String) :=
  [(1, "Hangup"), (3, "Quit"), (4, "Illegal instruction"), (5, "Trace/breakpoint trap"),
    (6, "Aborted"), (7, "Bus error"), (8, "Floating point exception"), (9, "Killed"),
    (10, "User defined signal 1"), (11, "Segmentation fault"), (12, "User defined signal 2"),
    (14, "Alarm clock"), (15, "Terminated")]

/-- The signal and the processes that `kill` is given. -/
def killArguments : List Octets → Option (Nat × List Octets)
  | ['-', 's'] :: name :: rest => (signal? name).map (·, rest)
  | ('-' :: c :: name) :: rest => (signal? (c :: name)).map (·, rest)
  | rest => some (15, rest)

/-! ## Variables -/

/-- Assigns to a variable, unless it is a constant. -/
def assignTo (name value : Octets) : Run Unit := do
  let p ← get
  if (p.named? name).any (·.constant) then abort (shown name ++ ": is read only")
  else set (p.assign name value)

/-- Marks variables, assigning to those that are given a value. Where `onlyKnown` is set, a name
that is given no value and has none stays without one. -/
def markVariables (onlyKnown : Bool) (mark : Variable → Variable) : List Octets → Run Unit
  | [] => return ()
  | arg :: rest => do
    let name := arg.takeWhile (· != '=')
    if !isName name then abort (shown arg ++ ": bad variable name")
    match arg.drop name.length with
    | _ :: value => assignTo name value
    | [] => pure ()
    modify fun p =>
      let old := (p.named? name).getD { value := [] }
      if (p.named? name).isNone && arg == name && onlyKnown then p
      else { p with bindings := p.bindings.set (String.ofList name) (mark old) }
    markVariables onlyKnown mark rest

/-- Makes variables that are put back when the function returns. -/
def localVariables : List Octets → Run Unit
  | [] => return ()
  | arg :: rest => do
    let name := arg.takeWhile (· != '=')
    let p ← get
    match p.frames with
    | [] => abort "not in a function"
    | frame :: frames =>
      let saved := (String.ofList name, p.named? name)
      set { p with frames := (saved :: frame) :: frames }
      match arg.drop name.length with
      | _ :: value => assignTo name value
      | [] => pure ()
      localVariables rest

/-- Takes variables or functions away. -/
def unsetAll (args : List Octets) : Run Unit := do
  let (options, names) ← optionsOf "fv" args
  for name in names do
    if (((← get).named? name).any (·.constant)) then abort (shown name ++ ": is read only")
    modify fun p =>
      if options.contains 'f' then
        { p with functions := ⟨p.functions.entries.filter (·.1 ≠ String.ofList name)⟩ }
      else p.unset name

/-- A value as it is told so that a shell reads it back. -/
def requoted (cs : Octets) : Octets :=
  ['\''] ++ (cs.flatMap fun c => if c == '\'' then "'\"'\"'".toList else [c]) ++ ['\'']

/-! ## Options -/

/-- Turns an option of the shell on or off. -/
def setOption (letter : Char) (on : Bool) (p : State) : Option State :=
  match letter with
  | 'e' => some { p with exitOnError := on }
  | 'u' => some { p with strict := on }
  | 'f' => some { p with noGlob := on }
  | 'x' => some { p with tracing := on }
  | 'a' | 'b' | 'C' | 'h' | 'm' | 'n' | 'v' => some p
  | _ => none

/-- The letter of an option with a name. -/
def optionLetter? (cs : Octets) : Option Char :=
  ([("errexit", 'e'), ("nounset", 'u'), ("noglob", 'f'), ("xtrace", 'x'), ("verbose", 'v'),
    ("noexec", 'n'), ("noclobber", 'C'), ("allexport", 'a'), ("monitor", 'm')].find? fun e =>
      e.1.toList == cs).map (·.2)

/-- Turns options on or off by their letters. -/
def setOptions (on : Bool) : List Char → Run Unit
  | [] => return ()
  | c :: rest => do
    match setOption c on (← get) with
    | some p => set p
    | none => abort ("Illegal option -" ++ String.ofList [c])
    setOptions on rest

/-- Turns options on or off, and replaces the arguments if some are given. -/
def setAll : Nat → List Octets → Run Unit
  | 0, _ | _ + 1, [] => return ()
  | fuel + 1, arg :: rest => do
    match arg, rest with
    | ['-', '-'], _ => modify fun p => { p with arguments := rest }
    | ['-', 'o'], name :: rest | ['+', 'o'], name :: rest =>
      match optionLetter? name with
      | some c => setOptions (arg.head? == some '-') [c]
      | none => abort ("Illegal option -o " ++ shown name)
      setAll fuel rest
    | '-' :: c :: cs, _ => do
      setOptions true (c :: cs)
      setAll fuel rest
    | '+' :: c :: cs, _ => do
      setOptions false (c :: cs)
      setAll fuel rest
    | _, _ => modify fun p => { p with arguments := arg :: rest }

/-! ## Reading -/

/-- Takes a line off a text: its characters, with whether a backslash stood before them, whether it
has an end, and what is left. -/
def lineFront (raw : Bool) : Octets → List (Char × Bool) × Bool × Octets
  | [] => ([], false, [])
  | '\n' :: rest => ([], true, rest)
  | '\\' :: c :: rest =>
    if raw then
      if c == '\n' then ([('\\', false)], true, rest)
      else
        let (l, ended, left) := lineFront raw rest
        (('\\', false) :: (c, false) :: l, ended, left)
    else
      let (l, ended, left) := lineFront raw rest
      if c == '\n' then (l, ended, left) else ((c, true) :: l, ended, left)
  | c :: rest =>
    let (l, ended, left) := lineFront raw rest
    ((c, false) :: l, ended, left)

/-- Whether a character is a blank that separates fields. -/
def isBlankSeparator (separators : Octets) (c : Char × Bool) : Bool :=
  !c.2 && separators.contains c.1 && (c.1 == ' ' || c.1 == '\t' || c.1 == '\n')

/-- Spreads a line over variables; the last one gets all that is left. -/
def spread (separators : Octets) : List Octets → List (Char × Bool) → Run Unit
  | [], _ => return ()
  | [name], line => do
    let line := line.dropWhile (isBlankSeparator separators)
    let line := (line.reverse.dropWhile (isBlankSeparator separators)).reverse
    assignTo name (line.map (·.1))
  | name :: names, line => do
    let separates (c : Char × Bool) : Bool := !c.2 && separators.contains c.1
    let line := line.dropWhile (isBlankSeparator separators)
    let field := line.takeWhile (!separates ·)
    assignTo name (field.map (·.1))
    let after := (line.drop field.length).dropWhile (isBlankSeparator separators)
    let after :=
      match after with
      | c :: rest =>
        if separates c && !isBlankSeparator separators c then rest else after
      | [] => []
    spread separators names after

/-- Reads a line into variables. -/
def readLine (args : List Octets) : Run Unit := do
  let (options, names) ← optionsOf "rp" args
  if names.isEmpty then abort "arg count"
  match names.find? (!isName ·) with
  | some name => abort (shown name ++ ": bad variable name")
  | none => pure ()
  let p ← get
  let (line, ended, left) := lineFront (options.contains 'r') (p.unread 0)
  set (p.leave 0 left)
  spread p.separators names line
  setStatus (if ended then 0 else 1)

/-! ## Directories -/

/-- Goes to another directory. -/
def changeDirectory (args : List Octets) : Run Unit := do
  let (_, args) ← optionsOf "LP" args
  let p ← get
  let value (name : String) : Octets := ((p.named? name.toList).map (·.value)).getD []
  let back := args.head? == some ['-']
  let target := if back then value "OLDPWD" else args.headD (value "HOME")
  match (if target.isEmpty then .ok p.files else p.files.enter (shown target)) with
  | .ok files =>
    let old := p.workingDirectory
    let p := { p with files := files }
    set ((p.assign "OLDPWD".toList old).assign "PWD".toList p.workingDirectory)
    if back then emit "cd" (p.workingDirectory ++ ['\n'])
  | .error _ => abort ("can't cd to " ++ shown target)

/-! ## All of them -/

/-- The names of the builtins that a failing redirection or a wrong use ends the shell in, and whose
assignments stay. -/
def specialNames : List String :=
  [":", ".", "break", "continue", "eval", "exec", "exit", "export", "local", "readonly", "return",
    "set", "shift", "times", "trap", "unset"]

/-- The names of the other builtins. -/
def builtinNames : List String :=
  ["[", "alias", "bg", "cd", "chdir", "command", "echo", "false", "fg", "hash", "jobs",
    "kill", "printf", "pwd", "read", "test", "true", "type", "ulimit", "umask", "unalias", "wait"]

/-- The names of the programs that run another command. -/
def wrapperNames : List String :=
  ["dash", "env", "nice", "nohup", "setsid", "sh", "timeout", "xargs"]

/-- How a name is told by `type`. -/
def describe (p : State) (name : Octets) : Option String :=
  let text := String.ofList name
  if reservedWords.contains text then some (text ++ " is a shell keyword")
  else if specialNames.contains text then some (text ++ " is a special shell builtin")
  else if (p.functions.get? text).isSome then some (text ++ " is a shell function")
  else if builtinNames.contains text then some (text ++ " is a shell builtin")
  else if (utility? name).isSome || wrapperNames.contains text then
    some (text ++ " is /usr/bin/" ++ text)
  else none

/-- The builtins that run no further commands; none for another name. -/
def builtin? (name : String) (args : List Octets) : Option (Run Unit) :=
  match name with
  | ":" | "true" | "alias" | "jobs" | "times" | "ulimit" => some (setStatus 0)
  | "hash" => some do
    setStatus 0
    for a in args do
      if (describe (← get) a).isNone then
        complain (shown a ++ ": not found")
        setStatus 1
  | "unalias" => some do
    setStatus 0
    let (_, names) ← optionsOf "a" args
    for name in names do
      warn ("unalias: ".toList ++ name ++ " not found\n".toList)
      setStatus 1
  | "bg" | "fg" => some (abort "No current job")
  | "wait" => some (waitFor args)
  | "false" => some (setStatus 1)
  | "echo" => some do
    setStatus 0
    emit "echo" (echoText args)
  | "printf" => some do
    setStatus 0
    match (if args.head? == some ['-', '-'] then args.tail else args) with
    | [] => abort "usage: printf format [arg ...]"
    | format :: args =>
      let printed := Printed.ofFormat format args
      for c in printed.complaints do
        complain (shown c)
        setStatus 1
      emit "printf" printed.out
      match printed.unknown with
      | some ['%'] => abort "missing format character"
      | some directive => abort (shown directive ++ ": invalid directive")
      | none => pure ()
  | "pwd" => some do
    setStatus 0
    discard (optionsOf "LP" args)
    emit "pwd" ((← get).workingDirectory ++ ['\n'])
  | "test" => some (answer args)
  | "[" => some do
    if args.getLast? == some [']'] then answer args.dropLast
    else abort "missing ]"
  | "cd" | "chdir" => some do
    setStatus 0
    changeDirectory args
  | "exit" => some do
    let p ← get
    setStatus ((← numberArgument args p.status) % 256)
    throw .exit
  | "return" => some do
    let p ← get
    setStatus ((← numberArgument args p.status) % 256)
    throw .leaveFunction
  | "break" => some do
    let levels ← loopsArgument args
    setStatus 0
    if levels > 0 then throw (.leaveLoop levels)
  | "continue" => some do
    let levels ← loopsArgument args
    setStatus 0
    if levels > 0 then throw (.nextRound levels)
  | "shift" => some do
    let n ← numberArgument args 1
    let p ← get
    if n > p.arguments.length then abort "can't shift that many"
    else set { p with arguments := p.arguments.drop n, status := 0 }
  | "set" => some do
    setStatus 0
    if args.isEmpty then
      emit "set" (((← get).bindings.entries.mergeSort fun a b => a.1 ≤ b.1).flatMap fun e =>
        e.1.toList ++ '=' :: requoted e.2.value ++ ['\n'])
    else setAll (args.length + 1) args
  | "unset" => some do
    setStatus 0
    unsetAll args
  | "export" => some do
    setStatus 0
    if args.isEmpty || args == [['-', 'p']] then
      let environment := (← get).environment.mergeSort fun a b => Octets.isAtMost a.1 b.1
      emit "export" (environment.flatMap fun e =>
        "export ".toList ++ e.1 ++ '=' :: requoted e.2 ++ ['\n'])
    else
      let (_, args) ← optionsOf "p" args
      markVariables true ({ · with exported := true }) args
  | "readonly" => some do
    setStatus 0
    let (_, args) ← optionsOf "p" args
    markVariables false ({ · with constant := true }) args
  | "local" => some do
    setStatus 0
    localVariables args
  | "read" => some (readLine args)
  | "umask" => some do
    setStatus 0
    match args with
    | [] => emit "umask" (layOut 4 (Nat.toDigits 8 (← get).mask) ++ ['\n'])
    | a :: _ =>
      if !a.isEmpty && a.all fun c => '0' ≤ c && c ≤ '7' then
        modify fun p => { p with mask := (octalFront a.length a).1 % 0o1000 }
      else abort ("Illegal mode: " ++ shown a)
  | "type" => some do
    setStatus 0
    for a in args do
      match describe (← get) a with
      | some words => emit "type" (Octets.ofString (words ++ "\n"))
      | none =>
        emit "type" (a ++ ": not found\n".toList)
        setStatus 127
  | _ => none
where
  /-- How many of the loops that are running are meant. -/
  loopsArgument (args : List Octets) : Run Nat := do
    let n ← numberArgument args 1
    if n == 0 then abort ("Illegal number: " ++ shown (args.headD []))
    else return min n (← get).loops
  /-- Sets the exit code by what `test` finds out. -/
  answer (args : List Octets) : Run Unit := do
    match Condition.eval (← get).files args with
    | .ok b => setStatus (if b then 0 else 1)
    | .error words => abort words
  /-- Sets the exit code to that of a command that was run in the background. -/
  waitFor (args : List Octets) : Run Unit := do
    setStatus 0
    for a in args do
      match natural? a with
      | some n => setStatus (((← get).jobs.lookup n).getD 127)
      | none => abort ("Illegal number: " ++ shown a)
  /-- Puts zeros in front of digits. -/
  layOut (width : Nat) (digits : Octets) : Octets :=
    List.replicate (width - digits.length) '0' ++ digits

end StepFlow.Shell
