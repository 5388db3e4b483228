import StepFlow.Toml.Value

/-! # Tables under construction

A document fills its tables piece by piece: headers open tables, dotted keys pass through them, and
entries are set in them. Whether a piece may be added to what is there hangs on how a table came
about, which a **branch** of the tree remembers and a finished value does not.

A table may be opened by a header once, also after tables inside it. It may not be opened after a
dotted key made it, a dotted key may not enter a table that a header opened, and nothing may be
added to a table or an array that was given as a value. -/

namespace StepFlow.Toml

/-- How a table under construction came about. -/
inductive Origin where
  /-- On the way to a table that a header opened. -/
  | implied
  /-- By a dotted key. -/
  | dotted
  /-- By its own header. -/
  | header
deriving Repr, DecidableEq

/-- A **branch** of the tree under construction. -/
inductive Branch where
  /-- A finished value. -/
  | value (v : Value)
  /-- A table that may grow. -/
  | table (origin : Origin) (entries : List (String × Branch))
  /-- An array of tables that may grow at its end, the last table first. -/
  | tables (last : List (String × Branch)) (others : List (List (String × Branch)))

instance : Inhabited Branch := ⟨.value default⟩

/-- The entries of a table under construction, in order. -/
abbrev Entries := List (String × Branch)

mutual

/-- The value that a branch becomes. -/
def Branch.finish : Branch → Value
  | .value v => v
  | .table _ entries => .table (finishEntries entries)
  | .tables last others =>
    .array ((Value.table (finishEntries last) :: finishTables others).reverse)

/-- The entries that entries under construction become. -/
def finishEntries : List (String × Branch) → List (String × Value)
  | [] => []
  | (k, b) :: rest => (k, b.finish) :: finishEntries rest

/-- The tables that tables under construction become. -/
def finishTables : List (List (String × Branch)) → List Value
  | [] => []
  | entries :: rest => .table (finishEntries entries) :: finishTables rest

end

namespace Entries

/-- The entries with a branch put under a key, in place or at the end. -/
def put (k : String) (b : Branch) : Entries → Entries
  | [] => [(k, b)]
  | (m, c) :: rest => if m == k then (m, b) :: rest else (m, c) :: put k b rest

/-- Changes the entries at the end of a path of headers; tables on the way are implied. -/
def within (change : Entries → Option Entries) : List String → Entries → Option Entries
  | [], entries => change entries
  | k :: path, entries =>
    match entries.lookup k with
    | none => do return put k (.table .implied (← within change path [])) entries
    | some (.table origin inner) => do
      return put k (.table origin (← within change path inner)) entries
    | some (.tables last others) => do
      return put k (.tables (← within change path last) others) entries
    | some (.value _) => none

/-- Opens the table with a key for a header. -/
def openTable (k : String) (entries : Entries) : Option Entries :=
  match entries.lookup k with
  | none => some (put k (.table .header []) entries)
  | some (.table .implied inner) => some (put k (.table .header inner) entries)
  | some _ => none

/-- Opens one more table of the array with a key. -/
def openElement (k : String) (entries : Entries) : Option Entries :=
  match entries.lookup k with
  | none => some (put k (.tables [] []) entries)
  | some (.tables last others) => some (put k (.tables [] (last :: others)) entries)
  | some _ => none

/-- Sets a value at the end of a dotted key. The table that the value goes into was made by a dotted
key, unless the key has no dots. -/
def setDotted (path : List String) (k : String) (v : Value) (byDots : Bool) (entries : Entries) :
    Option Entries :=
  match path with
  | [] =>
    if byDots && (entries.lookup k).isNone then some (put k (.value v) entries) else none
  | step :: path =>
    match entries.lookup step with
    | none => do return put step (.table .dotted (← setDotted path k v true [])) entries
    | some (.table .header _) => none
    | some (.table origin inner) => do
      return put step (.table origin (← setDotted path k v (origin == .dotted) inner)) entries
    | some (.tables last others) => do
      return put step (.tables (← setDotted path k v false last) others) entries
    | some (.value _) => none

/-- Sets a value under a key of a table, dotted or not. -/
def set (path : List String) (k : String) (v : Value) (entries : Entries) : Option Entries :=
  setDotted path k v true entries

end Entries

end StepFlow.Toml
