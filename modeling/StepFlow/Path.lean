/-! # Paths

Paths are texts whose parts stand between slashes. A path that begins with a slash is absolute and
replaces whatever it is joined to; otherwise joining puts one slash between the two. Nothing is
normalised: dots and repeated slashes stay as they are, and only looking a path up gives them their
meaning. -/

namespace StepFlow.Path

/-- The parts of a text between slashes, empty ones included. -/
def split : List Char → List (List Char)
  | [] => [[]]
  | c :: rest =>
    match split rest with
    | [] => [[c]]
    | part :: parts => if c = '/' then [] :: part :: parts else (c :: part) :: parts

/-- The parts of a path between slashes, empty ones included. -/
def parts (p : String) : List String := (split p.toList).map String.ofList

/-- Whether a path does not depend on a directory to start from. -/
def isAbsolute (p : String) : Bool := p.toList.head? = some '/'

/-- Joins a path to a directory. -/
def join (dir p : String) : String :=
  if isAbsolute p || dir.isEmpty then p
  else if dir.toList.getLast? = some '/' then dir ++ p
  else dir ++ "/" ++ p

/-- Whether a part names something: it is neither empty nor a dot. -/
def isNaming (part : String) : Bool := part ≠ "" && part ≠ "."

/-- The name of the file that a path denotes; none when the path ends in a parent, or is nothing but
slashes and dots. -/
def fileName? (p : String) : Option String :=
  match ((parts p).filter isNaming).getLast? with
  | some ".." => none
  | name => name

/-- The name without its last extension. A dot at the front begins no extension. -/
def stem (name : String) : String :=
  let backwards := name.toList.reverse
  let extension := backwards.takeWhile (· ≠ '.')
  match backwards.drop extension.length with
  | '.' :: c :: rest => String.ofList (c :: rest).reverse
  | _ => name

/-- The stem of the name of the file that a path denotes. -/
def fileStem? (p : String) : Option String := (fileName? p).map stem

end StepFlow.Path
