/-! # Spans of time

How a span of time is written: as a number of the largest of the units `s`, `ms`, `µs` and `ns` of
which it holds at least one, with as many decimals as it takes and no more. -/

namespace StepFlow.Text

/-- A **span** of time in whole nanoseconds. -/
structure Span where
  /-- The nanoseconds. -/
  nanos : Nat
deriving Repr, DecidableEq

namespace Span

/-- The span of some seconds and nanoseconds. -/
def ofSeconds (seconds nanos : Nat) : Span := ⟨seconds * 1000000000 + nanos⟩

/-- The digits of a number, padded with zeros at the front to a width. -/
def padded (width n : Nat) : List Char :=
  let digits := Nat.toDigits 10 n
  List.replicate (width - digits.length) '0' ++ digits

/-- A count of a unit that is divided into `10 ^ places` parts; zeros at the end are left out. -/
def decimal (places count : Nat) : String :=
  let part := (padded places (count % Nat.pow 10 places)).reverse.dropWhile (· = '0')
  let whole := toString (count / Nat.pow 10 places)
  if part.isEmpty then whole else whole ++ "." ++ String.ofList part.reverse

/-- How a span is written. -/
def text (s : Span) : String :=
  if s.nanos ≥ 1000000000 then decimal 9 s.nanos ++ "s"
  else if s.nanos ≥ 1000000 then decimal 6 s.nanos ++ "ms"
  else if s.nanos ≥ 1000 then decimal 3 s.nanos ++ "µs"
  else decimal 0 s.nanos ++ "ns"

end Span

end StepFlow.Text
