/-! # TOML values

The values of a TOML document. Integers are unbounded here, floats are kept as they are written, and
a date or a time is kept in its parts, since all that a scenario can hold is text, lists, tables and
counts. -/

namespace StepFlow.Toml

/-- A **date**. -/
structure Date where
  year : Nat
  month : Nat
  day : Nat
deriving Repr, DecidableEq

/-- A **time** of day. -/
structure Time where
  hour : Nat
  minute : Nat
  second : Option Nat := none
  /-- The digits of the fraction of a second, nine at most. -/
  fraction : Option (List Char) := none
deriving Repr, DecidableEq

/-- The **offset** of a time from UTC. -/
inductive Offset where
  | utc
  | minutes (ahead : Bool) (count : Nat)
deriving Repr, DecidableEq

/-- A **moment**: a date, a time, or both, and then perhaps an offset. -/
structure Moment where
  date : Option Date := none
  time : Option Time := none
  offset : Option Offset := none
deriving Repr, DecidableEq

/-- A **value**. The keys of a table are distinct and in the order of the document. -/
inductive Value where
  | text (s : String)
  | integer (n : Int)
  | float (digits : String)
  | boolean (b : Bool)
  | moment (m : Moment)
  | array (items : List Value)
  | table (entries : List (String × Value))
deriving Repr, Inhabited

/-! ## How a moment is written -/

/-- A number with zeros in front up to a width. -/
def padded (width n : Nat) : String :=
  let digits := Nat.toDigits 10 n
  String.ofList (List.replicate (width - digits.length) '0' ++ digits)

/-- A date is written `2000-01-31`. -/
def Date.text (d : Date) : String :=
  padded 4 d.year ++ "-" ++ padded 2 d.month ++ "-" ++ padded 2 d.day

/-- A time is written `23:59:01.5`; zeros at the end of the fraction are left out. -/
def Time.text (t : Time) : String :=
  let shown := t.fraction.map fun f => (f.reverse.dropWhile (· = '0')).reverse
  padded 2 t.hour ++ ":" ++ padded 2 t.minute ++
    (match t.second with
      | some s => ":" ++ padded 2 s
      | none => "") ++
    (match shown with
      | some [] | none => ""
      | some f => "." ++ String.ofList f)

/-- An offset is written `Z` or `+01:30`. -/
def Offset.text : Offset → String
  | .utc => "Z"
  | .minutes ahead count =>
    (if ahead then "+" else "-") ++ padded 2 (count / 60) ++ ":" ++ padded 2 (count % 60)

/-- A moment is written with a `T` between its date and its time. -/
def Moment.text (m : Moment) : String :=
  let date := (m.date.map Date.text).getD ""
  let time := (m.time.map Time.text).getD ""
  let between := if m.date.isSome && m.time.isSome then "T" else ""
  date ++ between ++ time ++ (m.offset.map Offset.text).getD ""

end StepFlow.Toml
