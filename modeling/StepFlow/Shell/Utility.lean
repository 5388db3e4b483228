import StepFlow.Shell.Condition
import StepFlow.Shell.Format
import StepFlow.Shell.Pattern

/-! # Utilities

The programs that a script can call by name and that need nothing of the shell but their arguments,
their input, the files and the environment. What a utility does is a value: what it puts out, what
it complains about, the files after it, and its exit code. -/

namespace StepFlow.Shell

open Text

/-- What a **utility** is called with. -/
structure Job where
  args : List Octets
  /-- What there is to read on standard input. -/
  input : Octets := []
  files : Files
  /-- The environment. -/
  environment : List (Octets × Octets) := []

/-- What a utility has done. -/
structure Finished where
  out : Octets := []
  err : Octets := []
  status : Nat := 0
  files : Files
  /-- Whether it has read its standard input. -/
  readInput : Bool := false

namespace Job

/-- A utility that only puts something out. -/
def done (j : Job) (out : Octets) (status : Nat := 0) : Finished :=
  { out := out, status := status, files := j.files }

/-- A utility that complains and fails. -/
def complain (j : Job) (words : String) (status : Nat := 1) : Finished :=
  { err := Octets.ofString (words ++ "\n"), status := status, files := j.files }

end Job

/-- Octets as they are told. -/
def shown (cs : Octets) : String := Octets.text cs

/-- A fault as a utility tells it that reads files. -/
def tell (utility : String) (path : Octets) (fault : FileFault) : Octets :=
  let place :=
    match utility, fault with
    | "head", .isADirectory | "tail", .isADirectory => "error reading '" ++ shown path ++ "'"
    | "head", _ | "tail", _ => "cannot open '" ++ shown path ++ "' for reading"
    | "sort", .isADirectory => "read failed: " ++ shown path
    | "sort", _ => "cannot read: " ++ shown path
    | _, _ => shown path
  Octets.ofString (utility ++ ": " ++ place ++ ": " ++ fault.words ++ "\n")

/-- The content of a file, where a dash is the standard input. -/
def Job.content (j : Job) (path : Octets) : FileResult Octets :=
  if path == ['-'] || path == "/dev/stdin".toList then .ok j.input
  else (j.files.read (shown path)).map Octets.ofBytes

/-- The content of all files one after the other, or the input when there are none; complaints; and
whether all of them could be read. Nothing is left of the input when it comes again. -/
def Job.contents (j : Job) (utility : String) (paths : List Octets) : List Octets × Octets × Bool :=
  if paths.isEmpty then ([j.input], [], true)
  else
    paths.zipIdx.foldl (fun (acc : List Octets × Octets × Bool) (path, i) =>
      let again := path == ['-'] && (paths.take i).contains path
      match j.content path with
      | .ok cs => (acc.1 ++ [if again then [] else cs], acc.2.1, acc.2.2)
      | .error fault => (acc.1, acc.2.1 ++ tell utility path fault, false)) ([], [], true)

/-- A utility that puts out something made of what it reads. -/
def Job.transform (j : Job) (utility : String) (paths : List Octets) (f : Octets → Octets) :
    Finished :=
  let (contents, complaints, fine) := j.contents utility paths
  { out := f contents.flatten, err := complaints, status := if fine then 0 else 1,
    files := j.files, readInput := true }

/-- Lines as one text, each with its end. -/
def withEnds (lines : List Octets) : Octets := lines.flatMap (· ++ ['\n'])

/-- The number that octets denote in base ten. -/
def natural? (cs : Octets) : Option Nat :=
  if cs.isEmpty || !cs.all Char.isDigit then none
  else some (cs.foldl (fun n c => 10 * n + (c.toNat - '0'.toNat)) 0)

/-- The integer that octets denote in base ten. -/
def integer? : Octets → Option Int
  | '-' :: rest => (natural? rest).map fun n => -Int.ofNat n
  | '+' :: rest => (natural? rest).map Int.ofNat
  | cs => (natural? cs).map Int.ofNat

/-- The letters of the options at the front of some arguments, and the arguments after them. -/
def letters : List Octets → List Char × List Octets
  | ['-', '-'] :: rest => ([], rest)
  | ('-' :: c :: cs) :: rest =>
    let (more, left) := letters rest
    (c :: cs ++ more, left)
  | args => ([], args)

/-! ## Texts -/

/-- A number at the right of a column. -/
def column (width n : Nat) : Octets :=
  let digits := Nat.toDigits 10 n
  List.replicate (width - digits.length) ' ' ++ digits

/-- Puts out files one after the other, with their lines numbered if that is asked for. -/
def cat (j : Job) : Finished :=
  let (options, paths) := letters j.args
  j.transform "cat" paths fun cs =>
    if options.contains 'n' then
      let numbered := (Octets.lines cs).zipIdx.map fun l => column 6 (l.2 + 1) ++ '\t' :: l.1
      let all := withEnds numbered
      if cs.getLast? == some '\n' then all else all.dropLast
    else cs

/-- How many of the first or last lines or octets are wanted: the number, whether octets are meant,
whether there is a sign in front, and the files. -/
def amount : List Octets → Nat × Bool × Bool × List Octets
  | ['-', 'n'] :: n :: rest => parse n false rest
  | ['-', 'c'] :: n :: rest => parse n true rest
  | ('-' :: 'n' :: n) :: rest => parse n false rest
  | ('-' :: 'c' :: n) :: rest => parse n true rest
  | ('-' :: c :: n) :: rest =>
    if c.isDigit then parse (c :: n) false rest else (10, false, false, ('-' :: c :: n) :: rest)
  | rest => (10, false, false, rest)
where
  /-- Takes the sign off the number. -/
  parse (n : Octets) (octets : Bool) (rest : List Octets) : Nat × Bool × Bool × List Octets :=
    match n with
    | '-' :: n | '+' :: n => ((natural? n).getD 0, octets, true, rest)
    | n => ((natural? n).getD 0, octets, false, rest)

/-- Takes lines off the front of a text: they, and what is left. -/
def takeLines : Nat → Octets → Octets
  | 0, _ => []
  | count + 1, cs =>
    let line := cs.takeWhile (· != '\n')
    match cs.drop line.length with
    | [] => line
    | _ :: rest => line ++ '\n' :: takeLines count rest

/-- Puts out the front of files. -/
def head (j : Job) : Finished :=
  let (n, octets, signed, paths) := amount j.args
  j.transform "head" paths fun cs =>
    let count := if signed then (if octets then cs.length else (Octets.lines cs).length) - n else n
    if octets then cs.take count else takeLines count cs

/-- Puts out the end of files. -/
def tail (j : Job) : Finished :=
  let (n, octets, signed, paths) := amount j.args
  let fromStart := signed && (j.args.any fun a => a.contains '+')
  j.transform "tail" paths fun cs =>
    if octets then cs.drop (if fromStart then n - 1 else cs.length - n)
    else
      let lines := Octets.lines cs
      let dropped := if fromStart then n - 1 else lines.length - n
      cs.drop ((withEnds (lines.take dropped)).length)

/-- How many runs of characters without blanks a text has. -/
def countWords (cs : Octets) : Nat :=
  let isBlank (c : Char) : Bool := c == ' ' || ('\t' ≤ c && c ≤ '\x0d')
  (cs.foldl (fun (acc : Nat × Bool) c =>
    if isBlank c then (acc.1, false) else (if acc.2 then acc.1 else acc.1 + 1, true)) (0, false)).1

/-- Counts lines, words and octets. -/
def wc (j : Job) : Finished :=
  let (options, paths) := letters j.args
  let wanted := if options.isEmpty then ['l', 'w', 'c'] else options
  let counts (cs : Octets) : List Nat :=
    (if wanted.contains 'l' then [cs.count '\n'] else []) ++
      (if wanted.contains 'w' then [countWords cs] else []) ++
      (if wanted.contains 'm' || wanted.contains 'c' then [cs.length] else [])
  let row (width : Nat) (ns : List Nat) (name : Octets) : Octets :=
    let cells := ns.map (column width)
    [' '].intercalate cells ++ (if name.isEmpty then [] else ' ' :: name) ++ ['\n']
  if paths.isEmpty then
    let ns := counts j.input
    { out := row (if ns.length == 1 then 1 else 7) ns [], files := j.files, readInput := true }
  else
    let results := paths.map fun p => (p, (j.content p).map counts)
    let err := results.flatMap fun r =>
      match r.2 with
      | .error fault => tell "wc" r.1 fault
      | .ok _ => []
    let good := results.filterMap fun r => r.2.toOption.map (r.1, ·)
    let sums := good.foldl (fun (acc : List Nat) r =>
      if acc.isEmpty then r.2 else acc.zipWith (· + ·) r.2) []
    let widest := (sums.map fun n => (Nat.toDigits 10 n).length).foldl max 1
    let width := if paths.length == 1 && wanted.length == 1 then 1 else widest
    let rows := good.flatMap fun r => row width r.2 r.1
    let last := if paths.length > 1 then row width sums "total".toList else []
    { out := rows ++ last, err := err, status := if err.isEmpty then 0 else 1, files := j.files }

/-- Takes repeated neighbours out of lines, with how often each stood there. -/
def runs : List Octets → List (Nat × Octets)
  | [] => []
  | l :: rest =>
    match runs rest with
    | (n, m) :: more => if l == m then (n + 1, m) :: more else (1, l) :: (n, m) :: more
    | [] => [(1, l)]

/-- Sorts lines. -/
def sort (j : Job) : Finished :=
  let (options, paths) := letters j.args
  let key (l : Octets) : Int :=
    let l := l.dropWhile fun c => c == ' ' || c == '\t'
    let (negative, ds) :=
      match l with
      | '-' :: rest => (true, rest)
      | _ => (false, l)
    let n := Int.ofNat ((natural? (ds.takeWhile Char.isDigit)).getD 0)
    if negative then -n else n
  let le (a b : Octets) : Bool :=
    if options.contains 'n' && key a != key b then key a < key b else Octets.isAtMost a b
  let r := j.transform "sort" paths fun cs =>
    let sorted := (Octets.lines cs).mergeSort le
    let sorted := if options.contains 'r' then sorted.reverse else sorted
    withEnds (if options.contains 'u' then (runs sorted).map (·.2) else sorted)
  if r.status == 0 then r else { r with out := [], status := 2 }

/-- Takes repeated lines out. -/
def uniq (j : Job) : Finished :=
  let (options, paths) := letters j.args
  j.transform "uniq" paths fun cs =>
    let kept := (runs (Octets.lines cs)).filter fun r =>
      (!options.contains 'd' || r.1 > 1) && (!options.contains 'u' || r.1 == 1)
    withEnds (kept.map fun r =>
      if options.contains 'c' then column 7 r.1 ++ ' ' :: r.2 else r.2)

/-- The characters that a set stands for: escapes, ranges and classes. -/
def charSet : Nat → Octets → Octets
  | 0, _ => []
  | _ + 1, [] => []
  | fuel + 1, '[' :: ':' :: rest =>
    let name := rest.takeWhile (· != ':')
    let all := (List.range 128).map Char.ofNat
    let inClass := (Glob.classRanges name).flatMap fun r => all.filter fun c => r.1 ≤ c && c ≤ r.2
    inClass ++ charSet fuel (rest.drop (name.length + 2))
  | fuel + 1, cs =>
    let (first, rest) :=
      match cs with
      | '\\' :: rest => escapeFront rest
      | c :: rest => ([c], rest)
      | [] => ([], [])
    match first, rest with
    | [a], '-' :: b :: more =>
      ((List.range (b.toNat + 1 - a.toNat)).map fun i => Char.ofNat (a.toNat + i)) ++
        charSet fuel more
    | _, _ => first ++ charSet fuel rest

/-- Replaces or takes out characters. -/
def tr (j : Job) : Finished :=
  let (options, sets) := letters j.args
  let expand (cs : Octets) : Octets := charSet (cs.length + 1) cs
  let complement := options.contains 'c' || options.contains 'C'
  let source := expand (sets.headD [])
  let target := expand ((sets.drop 1).headD [])
  let inSource (c : Char) : Bool := source.contains c != complement
  let squeeze (cs kept : Octets) : Octets :=
    (cs.foldl (fun (acc : Octets) c =>
      if acc.head? == some c && kept.contains c then acc else c :: acc) []).reverse
  let last := target.getLast?
  let swap (c : Char) : Char :=
    if complement then (if inSource c then last.getD c else c)
    else
      match source.idxOf? c with
      | some i => (target[i]?).getD (last.getD c)
      | none => c
  let change (cs : Octets) : Octets :=
    if options.contains 'd' then cs.filter (!inSource ·)
    else if target.isEmpty then squeeze cs (if complement then cs.filter inSource else source)
    else
      let swapped := cs.map swap
      if options.contains 's' then squeeze swapped target else swapped
  { j.transform "tr" [] change with files := j.files }

/-- Turns every line around. -/
def rev (j : Job) : Finished :=
  j.transform "rev" j.args fun cs =>
    let lines := withEnds ((Octets.lines cs).map List.reverse)
    if cs.getLast? == some '\n' then lines else lines.dropLast

/-- Puts out the lines from the last to the first. -/
def tac (j : Job) : Finished :=
  j.transform "tac" j.args fun cs => withEnds (Octets.lines cs).reverse

/-- The positions that a list of ranges admits. -/
def inRanges (list : Octets) (i : Nat) : Bool :=
  let rec split : Octets → List Octets
    | [] => [[]]
    | ',' :: rest => [] :: split rest
    | c :: rest =>
      match split rest with
      | f :: fs => (c :: f) :: fs
      | [] => [[c]]
  (split list).any fun r =>
    let low := r.takeWhile (· != '-')
    match r.drop low.length with
    | [] => natural? low == some i
    | _ :: high =>
      (natural? low).getD 1 ≤ i && (high.isEmpty || i ≤ (natural? high).getD 0)

/-- Takes fields or characters out of every line. -/
def cut (j : Job) : Finished :=
  let rec options : List Octets → Octets × Octets × Bool × List Octets
    | ['-', 'd'] :: d :: rest =>
      let (_, l, f, ps) := options rest
      (d, l, f, ps)
    | ('-' :: 'd' :: d) :: rest =>
      let (_, l, f, ps) := options rest
      (d, l, f, ps)
    | ['-', 'f'] :: l :: rest =>
      let (d, _, _, ps) := options rest
      (d, l, true, ps)
    | ('-' :: 'f' :: l) :: rest =>
      let (d, _, _, ps) := options rest
      (d, l, true, ps)
    | ['-', _] :: l :: rest =>
      let (d, _, _, ps) := options rest
      (d, l, false, ps)
    | ('-' :: _ :: l) :: rest =>
      let (d, _, _, ps) := options rest
      (d, l, false, ps)
    | ps => (['\t'], [], false, ps)
  let (separator, list, byField, paths) := options j.args
  let mark := separator.headD '\t'
  let rec fields : Octets → List Octets
    | [] => [[]]
    | c :: rest =>
      match fields rest with
      | f :: fs => if c == mark then [] :: f :: fs else (c :: f) :: fs
      | [] => [[c]]
  let pick {α : Type} (l : List α) : List α :=
    (l.zipIdx.filter fun e => inRanges list (e.2 + 1)).map (·.1)
  j.transform "cut" paths fun cs => withEnds ((Octets.lines cs).map fun l =>
    if !byField then pick l
    else if !l.contains mark then l
    else [mark].intercalate (pick (fields l)))

/-- Whether a line has a part that is equal to a text. -/
def hasPart (part : Octets) : Octets → Bool
  | [] => part.isEmpty
  | c :: rest => part.isPrefixOf (c :: rest) || hasPart part rest

/-- The pattern of a simple regular expression without repetition but of any text, and whether it is
tied to the front and to the end. -/
def expression (cs : Octets) : List Glob × Bool × Bool :=
  let (front, cs) :=
    match cs with
    | '^' :: rest => (true, rest)
    | _ => (false, cs)
  let (atEnd, cs) :=
    match cs.reverse with
    | '$' :: rest => (true, rest.reverse)
    | _ => (false, cs)
  let rec go : Nat → Octets → List Glob
    | 0, _ => []
    | _ + 1, [] => []
    | fuel + 1, '\\' :: c :: rest => .literal c :: go fuel rest
    | fuel + 1, '.' :: '*' :: rest => .star :: go fuel rest
    | fuel + 1, '.' :: rest => .any :: go fuel rest
    | fuel + 1, '[' :: rest =>
      let (negated, inner) :=
        match rest with
        | '^' :: more => (true, more)
        | _ => (false, rest)
      match Glob.ranges (inner.length + 1) true (inner.map (·, false)) with
      | some (rs, after) => .set negated rs :: go fuel (after.map (·.1))
      | none => .literal '[' :: go fuel rest
    | fuel + 1, c :: rest => .literal c :: go fuel rest
  (go (cs.length + 1) cs, front, atEnd)

/-- Puts out the lines that match. -/
def grep (j : Job) : Finished :=
  let (options, args) := letters j.args
  let lower (cs : Octets) : Octets := if options.contains 'i' then cs.map Char.toLower else cs
  let (pattern, front, atEnd) := expression (lower (args.headD []))
  let pattern := (if front then [] else [.star]) ++ pattern ++ (if atEnd then [] else [.star])
  let fits (l : Octets) : Bool :=
    let found :=
      if options.contains 'F' then hasPart (lower (args.headD [])) (lower l)
      else Glob.isMatch pattern (lower l)
    found != options.contains 'v'
  let paths := args.drop 1
  let (contents, complaints, fine) := j.contents "grep" paths
  let lines := contents.flatMap fun cs => (Octets.lines cs).filter fits
  let numbered := contents.flatMap fun cs => ((Octets.lines cs).zipIdx.filter (fits ·.1)).map
    fun e => (toString (e.2 + 1)).toList ++ ':' :: e.1
  let out :=
    if options.contains 'q' then []
    else if options.contains 'c' then withEnds [(toString lines.length).toList]
    else if options.contains 'n' then withEnds numbered
    else withEnds lines
  { out := out, err := complaints, files := j.files, readInput := true
    status := if !fine then 2 else if lines.isEmpty then 1 else 0 }

/-- Puts out numbers in a row. -/
def seq (j : Job) : Finished :=
  let numbers := j.args.filterMap integer?
  let (first, delta, last) :=
    match numbers with
    | [last] => (1, 1, last)
    | [first, last] => (first, 1, last)
    | first :: delta :: last :: _ => (first, delta, last)
    | [] => (1, 1, 0)
  if delta == 0 then j.complain "seq: invalid Zero increment value: '0'"
  else
    let count :=
      if delta > 0 then (last - first) / delta + 1 else (first - last) / (-delta) + 1
    j.done (withEnds ((List.range count.toNat).map fun i =>
      (toString (first + delta * Int.ofNat i)).toList))

/-! ## Names -/

/-- A path without slashes at its end. -/
def bare (cs : Octets) : Octets :=
  let cut := (cs.reverse.dropWhile (· == '/')).reverse
  if cut.isEmpty && !cs.isEmpty then ['/'] else cut

/-- Puts out the last part of a path. -/
def basename (j : Job) : Finished :=
  let path := bare (j.args.headD [])
  let name := if path == ['/'] then path else (path.reverse.takeWhile (· != '/')).reverse
  let ending := (j.args.drop 1).headD []
  let name :=
    if ending.isSuffixOf name && ending != name then name.take (name.length - ending.length)
    else name
  j.done (name ++ ['\n'])

/-- Puts out a path without its last part. -/
def dirname (j : Job) : Finished :=
  let path := bare (j.args.headD [])
  let before := (path.reverse.dropWhile (· != '/')).reverse
  let dir := if before.isEmpty then ['.'] else bare before
  j.done (dir ++ ['\n'])

/-! ## Files -/

/-- Does something to the files for every path; what goes wrong is told. -/
def Job.forEach (j : Job) (paths : List Octets) (explain : Octets → FileFault → String)
    (act : Files → Octets → FileResult Files) : Finished :=
  paths.foldl (fun (r : Finished) path =>
    match act r.files path with
    | .ok files => { r with files := files }
    | .error fault =>
      { r with err := r.err ++ Octets.ofString (explain path fault ++ "\n"), status := 1 })
    { files := j.files }

/-- Makes files that are not there. -/
def touch (j : Job) : Finished :=
  j.forEach (letters j.args).2
    (fun p f => "touch: cannot touch '" ++ shown p ++ "': " ++ f.words)
    fun files p => do
      match (← files.locate (shown p)).node with
      | some _ => return files
      | none => return (← files.write (shown p) .empty).2

/-- Makes directories. -/
def mkdir (j : Job) : Finished :=
  let (options, paths) := letters j.args
  j.forEach paths
    (fun p f => "mkdir: cannot create directory '" ++ shown p ++ "': " ++ f.words)
    fun files p =>
      if options.contains 'p' then files.makeDirectories (shown p)
      else files.makeDirectory (shown p)

/-- Takes empty directories away. -/
def rmdir (j : Job) : Finished :=
  j.forEach (letters j.args).2
    (fun p f => "rmdir: failed to remove '" ++ shown p ++ "': " ++ f.words)
    fun files p => do
      let place ← files.locate (shown p)
      match place.node with
      | none => .error .notFound
      | some (.directory []) => return { files with root := files.root.set place.names none }
      | some (.directory _) => .error .notEmpty
      | some _ => .error .notADirectory

/-- Takes files away. -/
def rm (j : Job) : Finished :=
  let (options, paths) := letters j.args
  let deep := options.contains 'r' || options.contains 'R'
  j.forEach paths (fun p f => "rm: cannot remove '" ++ shown p ++ "': " ++ f.words)
    fun files p => do
      let place ← (match files.locate (shown p) with
        | .error fault => if options.contains 'f' then .ok ⟨[], none⟩ else .error fault
        | r => r)
      match place.node with
      | none => if options.contains 'f' then return files else .error .notFound
      | some (.directory _) =>
        if deep then return { files with root := files.root.set place.names none }
        else .error .isADirectory
      | some _ => return { files with root := files.root.set place.names none }

/-- The path that something goes to when it is put at another one: inside it, if that is a
directory. -/
def targetOf (files : Files) (source target : Octets) : String :=
  match files.locate (shown target) with
  | .ok ⟨_, some (.directory _)⟩ =>
    Path.join (shown target) ((Path.fileName? (shown source)).getD "")
  | _ => shown target

/-- Copies or moves files. -/
def transfer (j : Job) (utility : String) (keep deep : Bool) (paths : List Octets) : Finished :=
  let target := paths.getLastD []
  j.forEach paths.dropLast
    (fun p f => utility ++ ": cannot stat '" ++ shown p ++ "': " ++ f.words)
    fun files p => do
      let place ← files.locate (shown p)
      match place.node with
      | none => .error .notFound
      | some node =>
        if node.isDirectory && keep && !deep then .error .isADirectory
        else
          let goal ← files.locate (targetOf files p target)
          let root := if keep then files.root else files.root.set place.names none
          return { files with root := root.set goal.names (some node) }

/-- Copies files. -/
def cp (j : Job) : Finished :=
  let (options, paths) := letters j.args
  let deep := options.any fun c => c == 'r' || c == 'R' || c == 'a'
  transfer j "cp" true deep paths

/-- Moves files. -/
def mv (j : Job) : Finished := transfer j "mv" false true (letters j.args).2

/-- Puts out the names in directories. -/
def ls (j : Job) : Finished :=
  let (options, paths) := letters j.args
  let names (entries : List (String × Node)) : List Octets :=
    let all := entries.map fun e => Octets.ofString e.1
    let seen := if options.contains 'a' then ['.'] :: ['.', '.'] :: all
      else if options.contains 'A' then all
      else all.filter (·.head? != some '.')
    seen.mergeSort Octets.isAtMost
  let paths := if paths.isEmpty then [['.']] else paths
  let found := paths.map fun p => (p, j.files.locate (shown p))
  let missing := found.flatMap fun e =>
    let told (words : String) : Octets :=
      Octets.ofString ("ls: cannot access '" ++ shown e.1 ++ "': " ++ words ++ "\n")
    match e.2 with
    | .error fault => told fault.words
    | .ok ⟨_, none⟩ => told FileFault.notFound.words
    | .ok _ => []
  let plain := found.filterMap fun e =>
    match e.2 with
    | .ok ⟨_, some node⟩ => if node.isDirectory && !options.contains 'd' then none else some e.1
    | _ => none
  let directories := found.filterMap fun e =>
    match e.2 with
    | .ok ⟨_, some (.directory entries)⟩ =>
      if options.contains 'd' then none else some (e.1, names entries)
    | _ => none
  let blocks := directories.map fun d =>
    if paths.length > 1 then withEnds ((d.1 ++ [':']) :: d.2) else withEnds d.2
  let blocks := if plain.isEmpty then blocks else withEnds plain :: blocks
  { out := ['\n'].intercalate blocks, err := missing, files := j.files
    status := if missing.isEmpty then 0 else 2 }

/-- Puts the input out and into files. -/
def tee (j : Job) : Finished :=
  let (options, paths) := letters j.args
  let r := j.forEach paths (fun p f => "tee: " ++ shown p ++ ": " ++ f.words) fun files p => do
    let old := if options.contains 'a' then (files.read (shown p)).toOption.getD .empty else .empty
    return (← files.write (shown p) (old ++ Octets.toBytes j.input)).2
  { r with out := j.input, readInput := true }

/-! ## The rest -/

/-- Puts out the environment. -/
def printenv (j : Job) : Finished :=
  match j.args with
  | [] => j.done (withEnds (j.environment.map fun e => e.1 ++ '=' :: e.2))
  | names =>
    let values := names.filterMap fun n => j.environment.lookup n
    j.done (withEnds values) (if values.length == names.length then 0 else 1)

/-- Whether a text is a length of time: a decimal number of seconds or of another unit. -/
def isInterval (cs : Octets) : Bool :=
  let whole := cs.dropWhile Char.isDigit
  let left :=
    match whole with
    | '.' :: fraction => fraction.dropWhile Char.isDigit
    | _ => whole
  cs.any Char.isDigit && [[], ['s'], ['m'], ['h'], ['d']].contains left

/-- Does nothing for a while. -/
def sleep (j : Job) : Finished :=
  let complain (told : List String) : Finished :=
    j.complain ("\n".intercalate (told ++ ["Try 'sleep --help' for more information."]))
  match (letters j.args).1, j.args.filter (!isInterval ·) with
  | option :: _, _ => complain ["sleep: invalid option -- '" ++ String.ofList [option] ++ "'"]
  | [], [] => if j.args.isEmpty then complain ["sleep: missing operand"] else j.done []
  | [], wrong => complain (wrong.map fun a => "sleep: invalid time interval '" ++ shown a ++ "'")

/-- How many lines are put out by what would never end. -/
def manyLines : Nat := 100000

/-- Puts out a line again and again. -/
def yes (j : Job) : Finished :=
  let line := if j.args.isEmpty then ['y'] else [' '].intercalate j.args
  j.done (withEnds (List.replicate manyLines line))

/-- Puts out the value of an expression of numbers and texts. -/
def expr (j : Job) : Finished :=
  let answer (n : Int) : Finished :=
    j.done ((toString n).toList ++ ['\n']) (if n == 0 then 1 else 0)
  match j.args with
  | [a] => j.done (a ++ ['\n']) (if a.isEmpty || a == ['0'] then 1 else 0)
  | [a, op, b] =>
    match integer? a, integer? b, op with
    | some m, some n, ['+'] => answer (m + n)
    | some m, some n, ['-'] => answer (m - n)
    | some m, some n, ['*'] => answer (m * n)
    | some m, some n, ['/'] =>
      if n == 0 then j.complain "expr: division by zero" 2 else answer (Int.tdiv m n)
    | some m, some n, ['%'] =>
      if n == 0 then j.complain "expr: division by zero" 2 else answer (Int.tmod m n)
    | some m, some n, ['<'] => answer (if m < n then 1 else 0)
    | some m, some n, ['>'] => answer (if m > n then 1 else 0)
    | _, _, ['='] => answer (if a == b then 1 else 0)
    | _, _, ['!', '='] => answer (if a != b then 1 else 0)
    | _, _, _ => j.complain "expr: syntax error" 2
  | _ => j.complain "expr: syntax error" 2

/-- Puts out the name of the system. -/
def uname (j : Job) : Finished := j.done "Linux\n".toList

/-- The utility with a name. -/
def utility? (name : Octets) : Option (Job → Finished) :=
  match String.ofList name with
  | "cat" => some cat
  | "head" => some head
  | "tail" => some tail
  | "wc" => some wc
  | "sort" => some sort
  | "uniq" => some uniq
  | "tr" => some tr
  | "rev" => some rev
  | "tac" => some tac
  | "cut" => some cut
  | "grep" => some grep
  | "seq" => some seq
  | "basename" => some basename
  | "dirname" => some dirname
  | "touch" => some touch
  | "mkdir" => some mkdir
  | "rmdir" => some rmdir
  | "rm" => some rm
  | "cp" => some cp
  | "mv" => some mv
  | "ls" => some ls
  | "tee" => some tee
  | "printenv" => some printenv
  | "sleep" => some sleep
  | "yes" => some yes
  | "expr" => some expr
  | "uname" => some uname
  | "sync" => some fun j => j.done []
  | _ => none

end StepFlow.Shell
