import StepFlow.Path

/-! # Files

A tree of directories and files, and what can be asked of it and done to it. Paths are looked up
part by part: every part but the last has to be a directory that is there, a dot stays where it is
and two dots lead to the parent.

What can go wrong is a `FileFault`, as the system that keeps the files would tell it. -/

namespace StepFlow

/-- Why a file could not be read or written. -/
inductive FileFault where
  | notFound
  | permission
  | exists
  | notADirectory
  | isADirectory
  | nameTooLong
  | notEmpty
  | badPath
  | notText
deriving Repr, DecidableEq

namespace FileFault

/-- The fault in words. -/
def words : FileFault → String
  | .notFound => "No such file or directory"
  | .permission => "Permission denied"
  | .exists => "File exists"
  | .notADirectory => "Not a directory"
  | .isADirectory => "Is a directory"
  | .nameTooLong => "File name too long"
  | .notEmpty => "Directory not empty"
  | .badPath => "file name contained an unexpected NUL byte"
  | .notText => "stream did not contain valid UTF-8"

/-- The number that the system has for the fault. -/
def number? : FileFault → Option Nat
  | .notFound => some 2
  | .permission => some 13
  | .exists => some 17
  | .notADirectory => some 20
  | .isADirectory => some 21
  | .nameTooLong => some 36
  | .notEmpty => some 39
  | .badPath | .notText => none

/-- The fault in words, with its number if it has one. -/
def detail (f : FileFault) : String :=
  match f.number? with
  | some n => f.words ++ " (os error " ++ toString n ++ ")"
  | none => f.words

end FileFault

/-- A **node** of a tree of files. -/
inductive Node where
  /-- A file with its content. -/
  | file (content : ByteArray)
  /-- A file that takes everything and holds nothing. -/
  | sink
  /-- A directory with its entries by name. -/
  | directory (entries : List (String × Node))

instance : Inhabited Node := ⟨.directory []⟩

namespace Node

/-- Whether a node is a directory. -/
def isDirectory : Node → Bool
  | .directory _ => true
  | _ => false

/-- The entries of a directory; a file has none. -/
def entries : Node → List (String × Node)
  | .directory entries => entries
  | _ => []

/-- The node at the end of a list of names. -/
def get? : Node → List String → Option Node
  | node, [] => some node
  | node, name :: names => (node.entries.lookup name).bind fun inner => get? inner names

/-- Entries with a node put under a name, in place or at the end; without one the name goes. -/
def place (name : String) (node : Option Node) : List (String × Node) → List (String × Node)
  | [] =>
    match node with
    | some n => [(name, n)]
    | none => []
  | (k, n) :: rest =>
    if k = name then
      match node with
      | some n => (k, n) :: rest
      | none => rest
    else (k, n) :: place name node rest

/-- Puts a node at the end of a list of names, or takes away what is there. Where there is no
directory to put it in, nothing changes. -/
def set : Node → List String → Option Node → Node
  | node, [], change => change.getD node
  | .directory entries, [name], change => .directory (place name change entries)
  | .directory entries, name :: names, change =>
    match entries.lookup name with
    | some inner => .directory (place name (some (inner.set names change)) entries)
    | none => .directory entries
  | node, _ :: _, _ => node

end Node

/-- A **file system**: a tree of files and the directory that relative paths start from. -/
structure Files where
  /-- The tree. -/
  root : Node := .directory []
  /-- The names on the way to the working directory. -/
  cwd : List String := []
deriving Inhabited

/-- The directories that are there before anything is put into them, and the file that takes
everything. -/
def Files.usual : Files where
  root := .directory
    ((["bin", "etc", "home", "opt", "proc", "root", "run", "sbin", "srv", "sys", "tmp"].map fun n =>
        (n, .directory [])) ++
      [("dev", .directory [("null", .sink)]),
        ("usr", .directory
          (["bin", "lib", "local", "sbin", "share"].map fun n => (n, .directory []))),
        ("var", .directory (["lib", "log", "tmp"].map fun n => (n, .directory [])))])

/-- What an operation on files gives. -/
abbrev FileResult (α : Type) : Type := Except FileFault α

namespace Files

/-- How many bytes a name may have. -/
def maxNameBytes : Nat := 255

/-- A **place** that a path leads to: the names on the way, and the node that is there, if any. -/
structure Place where
  names : List String
  node : Option Node

/-- Goes on from a place by one part of a path. -/
def advance (f : Files) (here : Place) (part : String) : FileResult Place :=
  match here.node with
  | none => .error .notFound
  | some node =>
    if !node.isDirectory then .error .notADirectory
    else if !Path.isNaming part then .ok here
    else if part = ".." then
      let names := here.names.dropLast
      .ok ⟨names, f.root.get? names⟩
    else if part.utf8ByteSize > maxNameBytes then .error .nameTooLong
    else .ok ⟨here.names ++ [part], node.entries.lookup part⟩

/-- The place that a path leads to. -/
def locate (f : Files) (path : String) : FileResult Place :=
  if path.isEmpty then .error .notFound
  else if path.toList.any (· = '\x00') then .error .badPath
  else
    let start := if Path.isAbsolute path then [] else f.cwd
    (Path.parts path).foldlM f.advance ⟨start, f.root.get? start⟩

/-- The content of a file. -/
def read (f : Files) (path : String) : FileResult ByteArray := do
  match (← f.locate path).node with
  | none => .error .notFound
  | some (.directory _) => .error .isADirectory
  | some .sink => .ok .empty
  | some (.file content) => .ok content

/-- The system with a file that holds some content, new or in place of an old one; and the names on
the way to the file. -/
def write (f : Files) (path : String) (content : ByteArray) : FileResult (List String × Files) := do
  let place ← f.locate path
  match place.node with
  | some (.directory _) => .error .isADirectory
  | some .sink => .ok (place.names, f)
  | _ =>
    if (Path.parts path).getLast? = some "" then .error .isADirectory
    else .ok (place.names, { f with root := f.root.set place.names (some (.file content)) })

/-- The system with some bytes put at the end of the file at the end of some names. -/
def append (f : Files) (names : List String) (bytes : ByteArray) : Files :=
  match f.root.get? names with
  | some (.file content) =>
    { f with root := f.root.set names (some (.file (content ++ bytes))) }
  | _ => f

/-- The system with one more directory. -/
def makeDirectory (f : Files) (path : String) : FileResult Files := do
  let place ← f.locate path
  match place.node with
  | some _ => .error .exists
  | none => .ok { f with root := f.root.set place.names (some (.directory [])) }

/-- The system with the directories that a list of parts leads through. -/
def makeParts (f : Files) (start : List String) (parts : List String) : FileResult Files := do
  let (_, made) ← parts.foldlM (fun (here, f) part => do
    let place ← f.advance here part
    match place.node with
    | some node => if node.isDirectory then .ok (place, f) else .error .exists
    | none =>
      let fresh := Node.directory []
      .ok (⟨place.names, some fresh⟩, { f with root := f.root.set place.names (some fresh) }))
    (⟨start, f.root.get? start⟩, f)
  return made

/-- Whether a path leads to a directory. -/
def hasDirectory (f : Files) (path : String) : Bool :=
  match f.locate path with
  | .ok ⟨_, some node⟩ => node.isDirectory
  | _ => false

/-- The system with a directory and all that are missing on the way to it. A path that ends in a dot
makes nothing of the name before the dot, which has to be there. -/
def makeDirectories (f : Files) (path : String) : FileResult Files :=
  if path.isEmpty then .ok f
  else if path.toList.any (· = '\x00') then .error .badPath
  else do
    let start := if Path.isAbsolute path then [] else f.cwd
    let parts := (Path.parts path).filter (· ≠ "")
    if parts.getLast? = some "." then
      let made ← f.makeParts start (parts.filter Path.isNaming).dropLast
      if made.hasDirectory path then .ok made else .error .notFound
    else f.makeParts start parts

/-- The system with another working directory. -/
def enter (f : Files) (path : String) : FileResult Files := do
  let place ← f.locate path
  match place.node with
  | none => .error .notFound
  | some node =>
    if node.isDirectory then .ok { f with cwd := place.names } else .error .notADirectory

mutual

/-- All files below a node, by the parts of their paths. -/
def filesBelow : Node → List (List String × ByteArray)
  | .file content => [([], content)]
  | .sink => []
  | .directory entries => filesAmong entries

/-- All files below some entries. -/
def filesAmong : List (String × Node) → List (List String × ByteArray)
  | [] => []
  | (name, node) :: rest =>
    (filesBelow node).map (fun e => (name :: e.1, e.2)) ++ filesAmong rest

end

/-- All files below the working directory, by path. -/
def listing (f : Files) : List (String × ByteArray) :=
  match f.root.get? f.cwd with
  | some node => (filesBelow node).map fun e => ("/".intercalate e.1, e.2)
  | none => []

end Files

end StepFlow
