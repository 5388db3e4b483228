import StepFlow.Toml.Scalar
import StepFlow.Toml.Tree

/-! # TOML documents

`Toml.parse` reads a document: lines that open tables, lines that set entries, blank lines and
comments. What is read is one table; what is no document gives nothing. A byte order mark at the
front does not count.

Arrays and inline tables may spread over several lines, end in a comma, and hold comments; they nest
eighty deep at most. -/

namespace StepFlow.Toml

open Text Text.Scan

/-! ## Blanks and comments -/

/-- Blanks within a line. -/
def spaces : Scan Unit := discard (takeWhile isSpace)

/-- A comment, if one comes next. -/
def comment : Scan Unit := do
  if ← accept ['#'] then discard (takeWhile fun c => !isControl c)

/-- Blanks, comments and line ends. -/
def gap : Scan Unit :=
  iterate (σ := Unit) (fun _ => do
    spaces
    comment
    return ((), ← lineEnd)) ()

/-- The end of a line after its content: blanks, perhaps a comment, and a line end unless the
document ends. -/
def lineRest : Scan Unit := do
  spaces
  comment
  if (← peek).isSome && !(← lineEnd) then fail

/-! ## Keys -/

/-- Whether a character can stand in a key without quotes. -/
def isBareKeyChar (c : Char) : Bool := c.isAlphanum || c == '-' || c == '_'

/-- One part of a key. -/
def simpleKey : Scan String := do
  match ← peek with
  | some '"' | some '\'' => return String.ofList (← quotedLine)
  | _ =>
    let bare ← takeWhile isBareKeyChar
    if bare.isEmpty then fail else return String.ofList bare

/-- A key: its parts before the last one, and the last one. -/
def dottedKey : Scan (List String × String) := do
  let parts ← iterate (σ := List String) (fun acc => do
    spaces
    let part ← simpleKey
    spaces
    return (part :: acc, ← accept ['.'])) []
  match parts with
  | last :: front => return (front.reverse, last)
  | [] => fail

/-! ## Values -/

/-- Fails where there is nothing to be had. -/
def orFail {α : Type} : Option α → Scan α
  | some a => pure a
  | none => fail

/-- The rest of an array, given how to read its items. -/
def arrayRest (item : Scan Value) : Scan (List Value) := do
  let items ← iterate (σ := List Value) (fun acc => do
    gap
    if ← accept [']'] then return (acc, false)
    let v ← item
    gap
    if ← accept [','] then return (v :: acc, true)
    expect [']']
    return (v :: acc, false)) []
  return items.reverse

/-- An entry: a key, an equals sign, and a value. -/
def entry (item : Scan Value) : Scan ((List String × String) × Value) := do
  let key ← dottedKey
  expect ['=']
  spaces
  return (key, ← item)

/-- The rest of an inline table, given how to read its values. -/
def tableRest (item : Scan Value) : Scan Entries :=
  iterate (σ := Entries) (fun acc => do
    gap
    if ← accept ['}'] then return (acc, false)
    let ((path, k), v) ← entry item
    let acc ← orFail (acc.set path k v)
    gap
    if ← accept [','] then return (acc, true)
    expect ['}']
    return (acc, false)) []

/-- A value whose arrays and inline tables nest no deeper than given. -/
def value : Nat → Scan Value
  | 0 => do
    match ← peek with
    | some '"' | some '\'' => return .text (String.ofList (← quoted))
    | _ => bareValue
  | depth + 1 => do
    match ← peek with
    | some '[' => do
      expect ['[']
      return .array (← arrayRest (value depth))
    | some '{' => do
      expect ['{']
      return .table (finishEntries (← tableRest (value depth)))
    | some '"' | some '\'' => return .text (String.ofList (← quoted))
    | _ => bareValue

/-- How deep arrays and inline tables may nest. -/
def maxDepth : Nat := 80

/-! ## Documents -/

/-- A **document** as far as it was read: its tables, and the path of the table that entries go
into. -/
structure Document where
  /-- The entries of the document's own table. -/
  entries : Entries := []
  /-- The path of the open table. -/
  path : List String := []

/-- A line that sets an entry. -/
def entryLine (d : Document) : Scan Document := do
  let ((path, k), v) ← entry (value maxDepth)
  let entries ← orFail (d.entries.within (Entries.set path k v) d.path)
  return { d with entries := entries }

/-- A line that opens a table, or one more table of an array. -/
def headerLine (d : Document) : Scan Document := do
  expect ['[']
  let isElement ← accept ['[']
  let (path, k) ← dottedKey
  expect (if isElement then [']', ']'] else [']'])
  let opened := if isElement then Entries.openElement k else Entries.openTable k
  let entries ← orFail (d.entries.within opened path)
  return { entries := entries, path := path ++ [k] }

/-- One line of a document. -/
def line (d : Document) : Scan Document := do
  spaces
  let next ← (do
    match ← peek with
    | none | some '#' | some '\n' | some '\r' => return d
    | some '[' => headerLine d
    | some _ => entryLine d)
  lineRest
  return next

/-- All lines of a document. -/
def document : Scan Document :=
  iterate (σ := Document) (fun d => do
    let d ← line d
    return (d, (← peek).isSome)) {}

/-- The characters of a text without a byte order mark at the front. -/
def withoutMark : List Char → List Char
  | '\ufeff' :: rest => rest
  | cs => cs

/-- **Reads a document**: the entries of its table, or nothing when the text is no document. -/
def parse (s : String) : Option (List (String × Value)) :=
  (document.run (withoutMark s.toList)).map fun d => finishEntries d.entries

end StepFlow.Toml
