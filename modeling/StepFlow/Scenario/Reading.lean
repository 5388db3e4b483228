import StepFlow.Scenario.Draft
import StepFlow.Toml.Document

/-! # Reading scenario drafts

How the table of a document becomes a draft. A document has four sections; `group` and `step` hold
one section for every name, and every section has its own known keys. Nothing is passed over: a key
that a section does not know and a value of another type than its key has are refused.

The entries of every table are visited by key, each with all that is below it before the next one,
and the first thing that is wrong is the answer, together with the place where it stands. -/

namespace StepFlow

open Toml (Value)

/-- One **mark** on the way to a place in a document. -/
inductive Mark where
  /-- Into a table or a section, to the value of a key. -/
  | key (key : String)
  /-- Into an array, to an item; the first one is number `0`. -/
  | item (number : Nat)
deriving Repr, DecidableEq

/-- Why a text is refused as a draft; the **place** of what is wrong is given by the marks on the
way from the document to it. -/
inductive ReadError where
  /-- It is no document. -/
  | noDocument
  /-- The section at a place does not know a key. -/
  | unknownKey (place : List Mark) (key : String) (known : List String)
  /-- The value at a place is not of the type that belongs there. -/
  | wrongType (place : List Mark)
  /-- The count at a place is negative. -/
  | negativeCount (place : List Mark)
deriving Repr, DecidableEq

namespace ReadError

/-- The error as it is told one mark further out. -/
def under (m : Mark) : ReadError → ReadError
  | .noDocument => .noDocument
  | .unknownKey place k known => .unknownKey (m :: place) k known
  | .wrongType place => .wrongType (m :: place)
  | .negativeCount place => .negativeCount (m :: place)

/-- A key in the marks that set it apart. -/
def marked (key : String) : String := "`" ++ key ++ "`"

/-- The keys that are known, in words. -/
def choice : List String → String
  | [a] => marked a
  | [a, b] => marked a ++ " or " ++ marked b
  | keys => "one of " ++ ", ".intercalate (keys.map marked)

/-- What is wrong, in words. -/
def detail : ReadError → String
  | .noDocument => "not a document"
  | .unknownKey _ k known => "unknown field " ++ marked k ++ ", expected " ++ choice known
  | .wrongType _ => "invalid type"
  | .negativeCount _ => "invalid value"

end ReadError

/-- What reading a value gives. -/
abbrev ReadResult (α : Type) : Type := Except ReadError α

/-- What reading a value gives, as it is told one mark further out. -/
def ReadResult.under {α : Type} (m : Mark) (r : ReadResult α) : ReadResult α :=
  r.mapError (ReadError.under m)

namespace Reading

/-! ## Plain values -/

/-- A text. -/
def text : Value → ReadResult String
  | .text s => .ok s
  | _ => .error (.wrongType [])

/-- The texts among the items of an array, of which the first one has a number. -/
def textsFrom : Nat → List Value → ReadResult (List String)
  | _, [] => .ok []
  | number, v :: rest => do
    let s ← ReadResult.under (.item number) (text v)
    return s :: (← textsFrom (number + 1) rest)

/-- A list of texts. -/
def texts : Value → ReadResult (List String)
  | .array items => textsFrom 0 items
  | _ => .error (.wrongType [])

/-- The largest count. -/
def maxCount : Nat := 18446744073709551615

/-- The smallest integer that counts as one, though a negative one. -/
def minInteger : Int := -9223372036854775808

/-- A count. -/
def count : Value → ReadResult Nat
  | .integer n =>
    if 0 ≤ n ∧ n ≤ maxCount then .ok n.toNat
    else if minInteger ≤ n ∧ n < 0 then .error (.negativeCount [])
    else .error (.wrongType [])
  | _ => .error (.wrongType [])

/-! ## Tables -/

/-- The key under which a moment is found where a table is expected. -/
def momentKey : String := "$__toml_private_datetime"

/-- Entries by key. -/
def byKey (entries : List (String × Value)) : List (String × Value) :=
  entries.mergeSort fun a b => a.1 ≤ b.1

/-- The entries of a value where a table is expected, by key; a moment has one entry, its text. -/
def entries? : Value → Option (List (String × Value))
  | .table entries => some (byKey entries)
  | .moment m => some [(momentKey, .text m.text)]
  | _ => none

/-- A table of any keys whose values are all read in one way. -/
def catalog {α : Type} (read : Value → ReadResult α) (v : Value) : ReadResult (Catalog α) :=
  match entries? v with
  | none => .error (.wrongType [])
  | some entries =>
    entries.foldlM
      (fun (c : Catalog α) e => return c.insert e.1 (← ReadResult.under (.key e.1) (read e.2)))
      Catalog.empty

/-- A **schema** of a section: the keys that it knows and what the value of each does. -/
abbrev Schema (σ : Type) : Type := List (String × (Value → σ → ReadResult σ))

namespace Schema

variable {σ : Type}

/-- The keys that a schema knows. -/
def keys (schema : Schema σ) : List String := schema.map (·.1)

/-- Reads the value of a key into a section. -/
def entry (schema : Schema σ) (s : σ) (e : String × Value) : ReadResult σ :=
  match schema.lookup e.1 with
  | some put => ReadResult.under (.key e.1) (put e.2 s)
  | none => .error (.unknownKey [] e.1 schema.keys)

/-- Reads a section into another one: a table by its keys. An array gives the values of the known
keys in their order, and what it holds beyond them does not count. -/
def read (schema : Schema σ) (s : σ) (v : Value) : ReadResult σ :=
  match entries? v, v with
  | some entries, _ => entries.foldlM schema.entry s
  | none, .array items => (schema.keys.zip items).foldlM schema.entry s
  | none, _ => .error (.wrongType [])

end Schema

/-! ## The sections -/

/-- What the `[scenario]` section knows. -/
def scenarioSchema : Schema Draft := [
  ("name", fun v d => return { d with name := some (← text v) }),
  ("log_dir", fun v d => return { d with logDir := some (← text v) })]

/-- What the `[coordinator]` section knows. -/
def coordinatorSchema : Schema Draft := [
  ("max_workers", fun v d => return { d with workers := some (← count v) })]

/-- What the section of a group knows. -/
def groupSchema : Schema GroupSection := [
  ("group", fun v s => return { s with group := some (← text v) }),
  ("requires", fun v s => return { s with requirements := ← texts v })]

/-- What the section of a step knows. -/
def stepSchema : Schema StepSection := [
  ("cmd", fun v s => return { s with command := some (← text v) }),
  ("group", fun v s => return { s with group := some (← text v) }),
  ("requires", fun v s => return { s with requirements := ← texts v }),
  ("env", fun v s => return { s with env := ← catalog text v }),
  ("cwd", fun v s => return { s with cwd := some (← text v) })]

/-- What a document knows. -/
def documentSchema : Schema Draft := [
  ("scenario", fun v d => scenarioSchema.read d v),
  ("coordinator", fun v d => coordinatorSchema.read d v),
  ("group", fun v d => return { d with groups := ← catalog (groupSchema.read {}) v }),
  ("step", fun v d => return { d with steps := ← catalog (stepSchema.read {}) v })]

end Reading

/-- **Reads the table of a document** as a draft. -/
def Draft.ofDocument (entries : List (String × Value)) : ReadResult Draft :=
  Reading.documentSchema.read {} (.table entries)

/-- What parses a text as a document: the entries of its table, unless it is none. -/
abbrev DocumentParser : Type := String → Option (List (String × Value))

/-- **Reads a text** as a draft, with some parser for documents. -/
def Draft.ofTextWith (parse : DocumentParser) (s : String) : ReadResult Draft :=
  match parse s with
  | none => .error .noDocument
  | some entries => Draft.ofDocument entries

end StepFlow
