import StepFlow.Shell.Builtin
import StepFlow.Shell.Control
import StepFlow.Shell.Expansion
import StepFlow.Shell.Program

/-! # Running shell scripts

Words are expanded, redirections are made, and commands are run, each going on from the state that
the one before it left. A command that a pipe or parentheses set apart runs on a copy of the state,
of which only what it put out, what it read and the files are kept.

Everything goes down on a number of steps, so a script that would not end is cut off. -/

namespace StepFlow.Shell

open Text

/-- How many steps a script may take in a row. -/
def maxSteps : Nat := 1000000

/-- The exit code of a program that a signal has ended, as a shell tells it. -/
def signalStatus (signal : Nat) : Nat := 128 + signal

/-- What a redirection opens: the state with the descriptor, or what is wrong. -/
def openTarget (fd : Nat) (path : Octets) (reading writing append : Bool) (p : State) :
    Except String State :=
  let told (fault : FileFault) : String :=
    "cannot " ++ (if writing then "create " else "open ") ++ shown path ++ ": " ++
      openWords writing fault
  let same (other : Nat) : Except String State :=
    match p.channel? other with
    | some c => .ok (p.connect fd c)
    | none => .error (told .notFound)
  match String.ofList path with
  | "/dev/stdin" => same 0
  | "/dev/stdout" => same 1
  | "/dev/stderr" => same 2
  | _ =>
    if writing && !reading then
      match p.files.locate (shown path) with
      | .error fault => .error (told fault)
      | .ok place =>
        match place.node, append with
        | some .sink, _ => .ok (p.connect fd .null)
        | some (.file _), true => .ok (p.connect fd (.file place.names))
        | _, _ =>
          match p.files.write (shown path) .empty with
          | .error fault => .error (told fault)
          | .ok (names, files) => .ok ({ p with files := files }.connect fd (.file names))
    else
      match p.files.locate (shown path) with
      | .ok ⟨_, some .sink⟩ => .ok (p.connect fd .null)
      | .ok ⟨_, some (.directory _)⟩ => .ok (p.feed fd [])
      | _ =>
        match p.files.read (shown path) with
        | .ok content => .ok (p.feed fd (Octets.ofBytes content))
        | .error fault =>
          if writing then
            match p.files.write (shown path) .empty with
            | .error fault => .error (told fault)
            | .ok (names, files) => .ok ({ p with files := files }.connect fd (.file names))
          else .error (told fault)

mutual

/-- Expands the parts of a word. -/
def expand : Nat → List Part → Run (List Piece)
  | 0, _ => throw .exit
  | _ + 1, [] => return []
  | fuel + 1, part :: rest => do
    match quotedArguments? (part :: rest) with
    | some after => do
      let here := argumentPieces true (← get).arguments
      return here ++ (← expand fuel after)
    | none =>
      let here ← (match part with
        | .text cs quoted => return pieces quoted false cs
        | .parameter p quoted => parameter fuel p quoted
        | .command body quoted => do
          let out ← capture (runAll fuel body)
          modify fun p => { p with substituted := some p.status }
          let kept := (out.reverse.dropWhile (· == '\n')).reverse.filter (· != '\x00')
          return pieces quoted true kept
        | .arithmetic body quoted => do
          let text := joined (← expand fuel body)
          let told (e : Arithmetic.Fault) : String :=
            let place := ": \"" ++ shown text ++ "\""
            match e with
            | .expectingPrimary => "arithmetic expression: expecting primary" ++ place
            | .expectingEnd => "arithmetic expression: expecting EOF" ++ place
            | .divisionByZero => "arithmetic expression: division by zero" ++ place
            | .illegalNumber cs => "Illegal number: " ++ shown cs
          let before ← get
          match (Arithmetic.parse text).bind fun e => e.eval State.arithmetic before with
          | .ok (n, p) => do
            set p
            return pieces quoted true (toString n).toList
          | .error e => abort (told e))
      return here ++ (← expand fuel rest)

/-- Expands the use of a parameter. -/
def parameter : Nat → Parameter → Bool → Run (List Piece)
  | 0, _, _ => throw .exit
  | fuel + 1, use, quoted => do
    let p ← get
    match use with
    | .bad => abort "Bad substitution"
    | .value name =>
      match parameterPieces p name quoted with
      | some ps => return ps
      | none =>
        if p.strict then abort (shown name ++ ": parameter not set")
        else return pieces quoted true []
    | .length name =>
      let n :=
        match name with
        | ['@'] | ['*'] => p.arguments.length
        | _ => ((p.parameter? name).getD []).length
      return pieces quoted true (toString n).toList
    | .choice name kind emptyIsNone word =>
      let value := parameterPieces p name quoted
      let isNone :=
        match value with
        | none => true
        | some ps => (name == ['@'] || name == ['*']) && p.arguments.isEmpty ||
            emptyIsNone && (joined ps).isEmpty
      match kind with
      | .default => if isNone then expand fuel word else return value.getD []
      | .alternative => if isNone then return pieces quoted true [] else expand fuel word
      | .assign =>
        if isNone then do
          if !isName name then abort (shown name ++ ": bad variable name")
          let ps ← expand fuel word
          assignTo name (joined ps)
          return pieces quoted true (joined ps)
        else return value.getD []
      | .complain =>
        if isNone then do
          let words := joined (← expand fuel word)
          let told :=
            if !words.isEmpty then shown words
            else if emptyIsNone then "parameter not set or null" else "parameter not set"
          abort (shown name ++ ": " ++ told)
        else return value.getD []
    | .strip name atEnd longest pattern => do
      let glob := Glob.parse (marked (← expand fuel pattern))
      let value := (p.parameter? name).getD []
      return pieces quoted true (stripMatch glob atEnd longest value)

/-- Expands a word to one text. -/
def expandText : Nat → Word → Run Octets
  | 0, _ => throw .exit
  | fuel + 1, word => do
    return joined (← expand fuel (← tilde false word))

/-- Expands words to fields. -/
def expandAll : Nat → List Word → Run (List Octets)
  | 0, _ => throw .exit
  | _ + 1, [] => return []
  | fuel + 1, word :: rest => do
    let ps ← expand fuel (← tilde false word)
    let p ← get
    let here := (fieldsOf p.separators ps).flatMap (globbed p)
    return here ++ (← expandAll fuel rest)

/-- Makes redirections one after the other; whether all could be made. -/
def redirect : Nat → List Redirection → Run Bool
  | 0, _ => throw .exit
  | _ + 1, [] => return true
  | fuel + 1, r :: rest => do
    let opened ← (match r with
      | .input fd target => do
        let path ← expandText fuel target
        return openTarget fd path true false false (← get)
      | .output fd append target => do
        let path ← expandText fuel target
        return openTarget fd path false true append (← get)
      | .both fd target => do
        let path ← expandText fuel target
        return openTarget fd path true true false (← get)
      | .duplicate fd target => do
        let text ← expandText fuel target
        let p ← get
        if text == ['-'] then return .ok (p.disconnect fd)
        else
          match natural? text with
          | none => abort "Syntax error: Bad fd number"
          | some other =>
            match p.channel? other with
            | some c => return .ok (p.connect fd c)
            | none => return .error (toString other ++ ": Bad file descriptor")
      | .document fd body => do
        let text := joined (← expand fuel body)
        return .ok ((← get).feed fd text))
    match opened with
    | .ok p => do
      set p
      redirect fuel rest
    | .error words => do
      complain words
      return false

/-- Does something with redirections made, and takes them back unless they are to stay. -/
def redirected : Nat → List Redirection → Bool → Bool → Run Unit → Run Unit
  | 0, _, _, _, _ => throw .exit
  | fuel + 1, rs, stay, special, act => do
    if rs.isEmpty then act
    else
      let before := (← get).descriptors
      let restore : Run Unit := modify fun p => { p with descriptors := before }
      if ← redirect fuel rs then
        if stay then act else ending act restore
      else
        restore
        setStatus 2
        if special then throw .exit

/-- Makes assignments, and gives them with their values. -/
def assignAll : Nat → Bool → List (Octets × Word) → Run (List Octets)
  | 0, _, _ => throw .exit
  | _ + 1, _, [] => return []
  | fuel + 1, exporting, (name, word) :: rest => do
    let value := joined (← expand fuel (← tilde true word))
    assignTo name value
    if exporting then
      modify fun p =>
        match p.named? name with
        | some v =>
          { p with bindings := p.bindings.set (String.ofList name) { v with exported := true } }
        | none => p
    return (name ++ '=' :: value) :: (← assignAll fuel exporting rest)

/-- Runs the command with a name. -/
def invoke : Nat → Bool → Bool → Octets → List Octets → Run Unit
  | 0, _, _, _, _ => throw .exit
  | fuel + 1, expected, skipFunctions, name, args => do
    let p ← get
    match (if skipFunctions then none else p.functions.get? (String.ofList name)) with
    | some body => do
      set { p with arguments := args, frames := [] :: p.frames, loops := 0 }
      let restore : Run Unit := modify fun q =>
        let saved := q.frames.headD []
        let bindings := saved.foldl (fun (t : Table Variable) (e : String × Option Variable) =>
          match e.2 with
          | some v => t.set e.1 v
          | none => ⟨t.entries.filter (·.1 ≠ e.1)⟩) q.bindings
        { q with
          arguments := p.arguments, frames := q.frames.drop 1, bindings := bindings
          loops := p.loops }
      ending (do
        try run fuel expected body
        catch
          | .leaveFunction => return ()
          | jump => throw jump) restore
    | none =>
      let text := String.ofList name
      let special := specialNames.contains text
      if text == "command" then runCommand fuel expected args
      else if special || builtinNames.contains text then
        let restore : Run Unit := modify fun q => { q with within := p.within }
        set { p with within := name }
        ending (do
          try runBuiltin fuel expected name args
          catch
            | .fault => if special && !skipFunctions then throw .fault
            | jump => throw jump) restore
      else if isProgram p name then runProgram fuel name args
      else notFound p name

/-- Runs a command that is no function, or tells what it is. -/
def runCommand : Nat → Bool → List Octets → Run Unit
  | 0, _, _ => throw .exit
  | fuel + 1, expected, args => do
    match args with
    | ['-', 'v'] :: name :: _ => do
      setStatus 0
      match describe (← get) name with
      | some words =>
        let path := if words.endsWith ("/usr/bin/" ++ shown name) then "/usr/bin/" else ""
        emit "command" (Octets.ofString (path ++ shown name ++ "\n"))
      | none => setStatus 127
    | ['-', 'V'] :: name :: _ => do
      setStatus 0
      match describe (← get) name with
      | some words => emit "command" (Octets.ofString (words ++ "\n"))
      | none =>
        emit "command" (name ++ ": not found\n".toList)
        setStatus 127
    | ['-', 'p'] :: name :: rest | name :: rest => invoke fuel expected true name rest
    | [] => setStatus 0

/-- Runs a builtin. -/
def runBuiltin : Nat → Bool → Octets → List Octets → Run Unit
  | 0, _, _, _ => throw .exit
  | fuel + 1, expected, name, args => do
    let p ← get
    match String.ofList name with
    | "eval" => do
      setStatus 0
      runText fuel expected ([' '].intercalate args)
    | "." =>
      match args with
      | [] => abort "filename argument required"
      | path :: _ =>
        match p.files.read (shown path), path.contains '/' with
        | .ok content, true => do
          setStatus 0
          modify fun p => { p with last := false, within := path }
          try runText fuel false (Octets.ofBytes content)
          catch
            | .leaveFunction => return ()
            | jump => throw jump
        | .error fault, true =>
          abort ("cannot open " ++ shown path ++ ": " ++ openWords false fault)
        | _, false => abort (shown path ++ ": not found")
    | "exec" =>
      match args with
      | [] => setStatus 0
      | n :: rest =>
        if isProgram p n then
          modify fun p => { p with last := true }
          runProgram fuel n rest
        else notFound p n
        throw .exit
    | "kill" => do
      setStatus 0
      if args.isEmpty then
        abort ("Usage: kill [-s sigspec | -signum | -sigspec] [pid | job]... or\n" ++
          "kill -l [exitstatus]")
      match killArguments args with
      | none =>
        match args with
        | [['-', 'l'], n] =>
          let number := natural? n
          match signals.find? fun s => number == some s.2 || number == some (signalStatus s.2) with
          | some s => emit "kill" (Octets.ofString (s.1 ++ "\n"))
          | none => abort ("invalid signal number or exit status: " ++ shown n)
        | _ => abort ("invalid signal number or name: " ++ shown ((args.headD []).drop 1))
      | some (signal, targets) =>
        for target in targets do
          if integer? target == some (Int.ofNat State.id) || target == ['0'] then
            match p.traps.lookup signal with
            | some action =>
              if signal == 9 then throw (.killed signal)
              else
                modify fun p => { p with last := false, within := [] }
                runText fuel false action
            | none => if isDeadly signal then throw (.killed signal)
          else if (integer? target).isSome then do
            complain "No such process"
            setStatus 1
          else abort ("Illegal number: " ++ shown target)
    | "trap" => do
      setStatus 0
      match args with
      | [] =>
        for (signal, action) in p.traps.mergeSort fun a b => a.1 ≤ b.1 do
          let words := (signals.find? (·.2 == signal)).map (·.1)
          emit "trap" ("trap -- ".toList ++ requoted action ++
            Octets.ofString (" " ++ words.getD (toString signal) ++ "\n"))
      | action :: names =>
        let (action, names) :=
          if names.isEmpty then (none, [action])
          else if action == ['-'] then (none, names)
          else (some action, names)
        for n in names do
          match signal? n with
          | some signal => modify fun p =>
            match action with
            | some a => { p with traps := replace signal a p.traps }
            | none => { p with traps := dropKey signal p.traps }
          | none => do
            warn ("trap: ".toList ++ n ++ ": bad trap\n".toList)
            setStatus 1
    | text =>
      match builtin? text args with
      | some act => act
      | none => notFound p name

/-- Runs a program for another one, which tells if there is none. -/
def runFor : Nat → String → List Octets → Run Unit
  | 0, _, _ => throw .exit
  | fuel + 1, caller, args => do
    let p ← get
    match args with
    | [] =>
      warn (Octets.ofString (caller ++ ": missing operand\nTry '" ++ caller ++
        " --help' for more information.\n"))
      setStatus 125
    | name :: rest =>
      if isProgram p name || (p.named? "PATH".toList).isNone && isProgram p ("/bin/".toList ++ name)
      then runProgram fuel name rest
      else
        let words :=
          if caller == "env" || caller == "xargs" then shown name
          else "failed to run command '" ++ shown name ++ "'"
        let words := if caller == "env" then "'" ++ words ++ "'" else words
        warn (Octets.ofString (caller ++ ": " ++ words ++ ": No such file or directory\n"))
        setStatus 127

/-- Runs a program, which may run a command in its turn. -/
def runProgram : Nat → Octets → List Octets → Run Unit
  | 0, _, _ => throw .exit
  | fuel + 1, name, args => do
    let p ← get
    let plain := plainName name
    match String.ofList plain with
    | "env" => runWith fuel args
    | "nohup" | "setsid" => runFor fuel (shown plain) args
    | "timeout" => runFor fuel "timeout" ((args.dropWhile fun a => a.head? == some '-').drop 1)
    | "nice" =>
      let args := args.dropWhile fun a => a.head? == some '-'
      runFor fuel "nice" (if (args.head?.bind natural?).isSome then args.drop 1 else args)
    | "xargs" =>
      let words := (fieldsOf [' ', '\t', '\n'] (pieces false true (p.unread 0))).map
        fun f => f.map (·.1)
      set (p.leave 0 [])
      runFor fuel "xargs" ((if args.isEmpty then ["echo".toList] else args) ++ words)
    | "sh" | "dash" => runShell fuel name args
    | text =>
      match utility? plain with
      | some utility => runUtility plain utility args
      | none =>
        match builtin? text args with
        | some act =>
          try act
          catch
            | .fault => return ()
            | jump => throw jump
        | none => notFound p name

/-- Runs a command with a changed environment, or tells the environment. -/
def runWith : Nat → List Octets → Run Unit
  | 0, _ => throw .exit
  | fuel + 1, args => do
    match args with
    | ['-', 'i'] :: rest => do
      let p ← get
      set { p with bindings := {} }
      ending (runWith fuel rest) (modify fun q => { q with bindings := p.bindings })
    | ['-', 'u'] :: name :: rest => do
      let p ← get
      set (p.unset name)
      ending (runWith fuel rest) (modify fun q => { q with bindings := p.bindings })
    | [] => do
      setStatus 0
      emit "env" (withEnds ((← get).environment.map fun e => e.1 ++ '=' :: e.2))
    | a :: rest =>
      if a.contains '=' then do
        let p ← get
        let name := a.takeWhile (· != '=')
        let fresh : Variable := { value := a.drop (name.length + 1), exported := true }
        set { p with bindings := p.bindings.set (String.ofList name) fresh }
        ending (runWith fuel rest) (modify fun q => { q with bindings := p.bindings })
      else runFor fuel "env" args

/-- Runs a shell of its own. -/
def runShell : Nat → Octets → List Octets → Run Unit
  | 0, _, _ => throw .exit
  | fuel + 1, name, args => do
    let p ← get
    let flags := args.takeWhile fun a => a.head? == some '-' && a.length > 1
    let rest := args.drop flags.length
    let letters := flags.flatMap (·.drop 1)
    let (text, self, arguments) : Except FileFault Octets × Octets × List Octets :=
      if letters.contains 'c' then (.ok (rest.headD []), (rest.drop 1).headD name, rest.drop 2)
      else
        match rest with
        | path :: more => ((p.files.read (shown path)).map Octets.ofBytes, path, more)
        | [] => (.ok (p.unread 0), name, [])
    let exported : Table Variable := ⟨p.bindings.entries.filter (·.2.exported)⟩
    let readsInput := !letters.contains 'c' && rest.isEmpty
    let jumped ← (do
      try
        apart do
          modify fun p => { p with
            last := true, bindings := p.startVariables exported, self := self
            arguments := arguments, functions := {}
            frames := [], loops := 0, status := 0, line := 1, within := []
            exitOnError := letters.contains 'e', strict := letters.contains 'u'
            tracing := letters.contains 'x', noGlob := letters.contains 'f' }
          match text with
          | .ok text => do
            if readsInput then modify fun p => p.leave 0 []
            toEnd (runText fuel false text)
            finish fuel
          | .error fault => do
            modify fun p => { p with self := name, line := 0 }
            toEnd (abort ("cannot open " ++ shown self ++ ": " ++ openWords false fault))
        return none
      catch jump => return some jump)
    match jumped with
    | some (.killed signal) => do
      if p.last then throw (.killed signal)
      match signalWords.lookup signal with
      | some words => warn (Octets.ofString (words ++ "\n"))
      | none => pure ()
      setStatus (signalStatus signal)
    | _ => return ()

/-- Runs what is to be run when the shell ends. -/
def finish : Nat → Run Unit
  | 0 => throw .exit
  | fuel + 1 => do
    let p ← get
    match p.traps.lookup 0 with
    | none => return ()
    | some action => do
      set { p with traps := dropKey 0 p.traps, last := false }
      runText fuel false action
      setStatus p.status

/-- Runs a simple command. -/
def runSimple : Nat → Bool → List (Octets × Word) → List Word → List Redirection → Run Unit
  | 0, _, _, _, _ => throw .exit
  | fuel + 1, expected, assignments, words, redirections => do
    modify fun p => { p with substituted := none }
    let fields ← expandAll fuel words
    let p ← get
    let trace (assigned : List Octets) : Run Unit := modify fun q =>
      let told := assigned ++ fields
      let line := "+ ".toList ++ [' '].intercalate told ++ ['\n']
      if p.tracing && !told.isEmpty then (q.putOn (p.channel? 2) line).getD q else q
    match fields with
    | [] => do
      redirected fuel redirections false false do
        setStatus 0
        trace (← assignAll fuel false assignments)
        modify fun p => { p with status := p.substituted.getD 0 }
    | name :: args =>
      let text := String.ofList name
      let special := specialNames.contains text && (p.functions.get? text).isNone
      let stay := text == "exec" && args.isEmpty
      if special then
        redirected fuel redirections stay true do
          trace (← assignAll fuel false assignments)
          invoke fuel expected false name args
      else
        redirected fuel redirections false false do
          if assignments.isEmpty then
            trace []
            invoke fuel expected false name args
          else
            let before := (← get).bindings
            let assigned := assignments.map fun a => String.ofList a.1
            let restore : Run Unit := modify fun q =>
              let bindings := assigned.foldl (fun (t : Table Variable) (n : String) =>
                match before.get? n with
                | some v => t.set n v
                | none => ⟨t.entries.filter (·.1 ≠ n)⟩) q.bindings
              { q with bindings := bindings }
            ending (do
              trace (← assignAll fuel true assignments)
              invoke fuel expected false name args) restore

/-- Ends the shell if a command has failed, where that is asked for and not expected. -/
def checkError (expected : Bool) : Run Unit := do
  let p ← get
  if p.exitOnError && !expected && p.status != 0 then throw .exit

/-- Runs a command; whether its failure is expected. -/
def run : Nat → Bool → Command → Run Unit
  | 0, _, _ => throw .exit
  | fuel + 1, expected, c => do
    if !c.isSimple then modify fun p => { p with last := false }
    match c with
    | .simple line assignments words redirections => do
      modify fun p => { p with line := line }
      runSimple fuel expected assignments words redirections
      checkError expected
    | .pipeline negated [stage] => do
      run fuel (expected || negated) stage
      if negated then modify fun p => { p with status := if p.status == 0 then 1 else 0 }
    | .pipeline negated stages => do
      runStages fuel none stages
      if negated then modify fun p => { p with status := if p.status == 0 then 1 else 0 }
      checkError (expected || negated)
    | .both first second => do
      run fuel true first
      if (← get).status == 0 then run fuel expected second
    | .either first second => do
      run fuel true first
      if (← get).status != 0 then run fuel expected second
    | .background body => do
      apart do
        modify fun p => p.feed 0 []
        run fuel false body
      modify fun p => { p with
        jobs := (State.id + p.jobs.length + 1, p.status) :: p.jobs, status := 0 }
    | .subshell body => do
      apart do
        toEnd do
          for c in body do
            run fuel expected c
        finish fuel
      checkError expected
    | .group body =>
      for c in body do
        run fuel expected c
    | .conditional test body other => do
      for c in test do
        run fuel true c
      if (← get).status == 0 then
        for c in body do
          run fuel expected c
      else if other.isEmpty then setStatus 0
      else
        for c in other do
          run fuel expected c
    | .loop untilTrue test body => do
      let code ← inLoop (rounds fuel untilTrue expected test body 0)
      setStatus code
    | .each name words body => do
      let fields ← (match words with
        | some ws => expandAll fuel ws
        | none => return (← get).arguments)
      setStatus 0
      inLoop (eachRound fuel expected name body fields)
    | .cases word clauses => do
      let text ← expandText fuel word
      setStatus 0
      runClauses fuel expected text clauses
    | .define name body => do
      modify fun p => { p with functions := p.functions.set (String.ofList name) body, status := 0 }
    | .redirected body redirections => do
      redirected fuel redirections false false (run fuel expected body)
      checkError expected

/-- Runs commands one after the other. -/
def runAll : Nat → List Command → Run Unit
  | 0, _ => throw .exit
  | fuel + 1, cs => do
    for c in cs do
      run fuel false c

/-- Runs commands that are connected by pipes; the first one gets what was put out before. -/
def runStages : Nat → Option Octets → List Command → Run Unit
  | 0, _, _ => throw .exit
  | _ + 1, _, [] => return ()
  | fuel + 1, input, stage :: rest => do
    let act : Run Unit := do
      match input with
      | some cs => modify fun p => p.feed 0 cs
      | none => pure ()
      run fuel true stage
    match rest with
    | [] => apart act
    | _ => do
      let out ← capture act
      runStages fuel (some out) rest

/-- Runs the rounds of a loop; the exit code of the last one. -/
def rounds : Nat → Bool → Bool → List Command → List Command → Nat → Run Nat
  | 0, _, _, _, _, _ => throw .exit
  | fuel + 1, untilTrue, expected, test, body, code => do
    if !(← round fuel true test) then return code
    else if ((← get).status == 0) == untilTrue then return code
    else
      let goesOn ← round fuel expected body
      let code := (← get).status
      if goesOn then rounds fuel untilTrue expected test body code else return code

/-- Runs the commands of a loop once; whether the loop goes on. -/
def round : Nat → Bool → List Command → Run Bool
  | 0, _, _ => throw .exit
  | fuel + 1, expected, body => do
    try
      for c in body do
        run fuel expected c
      return true
    catch
      | .leaveLoop levels =>
        setStatus 0
        if levels > 1 then throw (.leaveLoop (levels - 1)) else return false
      | .nextRound levels =>
        setStatus 0
        if levels > 1 then throw (.nextRound (levels - 1)) else return true
      | jump => throw jump

/-- Runs one round for each field. -/
def eachRound : Nat → Bool → Octets → List Command → List Octets → Run Unit
  | 0, _, _, _, _ => throw .exit
  | _ + 1, _, _, _, [] => return ()
  | fuel + 1, expected, name, body, field :: rest => do
    assignTo name field
    if ← round fuel expected body then eachRound fuel expected name body rest

/-- Runs the first clause of which a pattern matches. -/
def runClauses : Nat → Bool → Octets → List (List Word × List Command) → Run Unit
  | 0, _, _, _ => throw .exit
  | _ + 1, _, _, [] => return ()
  | fuel + 1, expected, text, (patterns, body) :: rest => do
    if ← anyMatch fuel text patterns then
      for c in body do
        run fuel expected c
    else runClauses fuel expected text rest

/-- Whether one of some patterns matches. -/
def anyMatch : Nat → Octets → List Word → Run Bool
  | 0, _, _ => throw .exit
  | _ + 1, _, [] => return false
  | fuel + 1, text, pattern :: rest => do
    let glob := Glob.parse (marked (← expand fuel pattern))
    if Glob.isMatch glob text then return true else anyMatch fuel text rest

/-- Runs a text as a script. -/
def runText : Nat → Bool → Octets → Run Unit
  | 0, _, _ => throw .exit
  | fuel + 1, expected, text => do
    let script := Script.read text
    let commands := script.lines.flatten
    let p ← get
    let wasLast := p.last && script.fault.isNone
    for (c, i) in commands.zipIdx do
      modify fun p => { p with last := wasLast && p.traps.isEmpty && i + 1 == commands.length }
      run fuel expected c
    match script.fault with
    | none => return ()
    | some (line, words) => do
      modify fun p => { p with line := line }
      abort words

end

end StepFlow.Shell
