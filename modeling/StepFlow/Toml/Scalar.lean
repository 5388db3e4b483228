import StepFlow.Text.Scan
import StepFlow.Toml.Value
import StepFlow.Toml.Quoted

/-! # Bare values

The values that stand in a document without quotes or brackets: truth values, integers, floats, and
moments. Each is read from its whole text, so what is read and what is refused hangs on that text
alone. -/

namespace StepFlow.Toml

open Text Text.Scan

/-! ## Numbers -/

/-- The digits of a number; an underscore stands only between two digits. -/
def digitGroups (isDigit : Char → Bool) (cs : List Char) : Option (List Char) :=
  let rec go : Bool → List Char → Option (List Char)
    | afterDigit, [] => if afterDigit then some [] else none
    | afterDigit, '_' :: rest => if afterDigit && !rest.isEmpty then go false rest else none
    | _, c :: rest => if isDigit c then (c :: ·) <$> go true rest else none
  go false cs

/-- The number that digits denote in a base. -/
def numberOf (base : Nat) (digits : List Char) : Nat :=
  digits.foldl (fun n c => base * n + hexValue c) 0

/-- Decimal digits without a zero in front of others. -/
def wholeDigits (cs : List Char) : Option (List Char) := do
  let digits ← digitGroups Char.isDigit cs
  match digits with
  | '0' :: _ :: _ => none
  | _ => some digits

/-- Takes the sign off: whether the number is negative, and the rest. -/
def signed : List Char → Bool × List Char
  | '+' :: rest => (false, rest)
  | '-' :: rest => (true, rest)
  | cs => (false, cs)

/-- An integer: decimal with a sign perhaps, or without one in base sixteen, eight or two. -/
def integer? : List Char → Option Int
  | '0' :: 'x' :: rest => (digitGroups isHexDigit rest).map fun ds => Int.ofNat (numberOf 16 ds)
  | '0' :: 'o' :: rest =>
    (digitGroups (fun c => '0' ≤ c && c ≤ '7') rest).map fun ds => Int.ofNat (numberOf 8 ds)
  | '0' :: 'b' :: rest =>
    (digitGroups (fun c => c == '0' || c == '1') rest).map fun ds => Int.ofNat (numberOf 2 ds)
  | cs => do
    let (negative, cs) := signed cs
    let n := numberOf 10 (← wholeDigits cs)
    return if negative then -Int.ofNat n else Int.ofNat n

/-- Whether a character begins an exponent. -/
def isExponentMark (c : Char) : Bool := c == 'e' || c == 'E'

/-- Whether the text is a float: a whole part, then a fraction or an exponent or both; or one of the
names of the values that have no digits. -/
def isFloat (cs : List Char) : Bool :=
  let (_, cs) := signed cs
  if cs == ['i', 'n', 'f'] || cs == ['n', 'a', 'n'] then true
  else
    let mantissa := cs.takeWhile (!isExponentMark ·)
    let exponent := cs.dropWhile (!isExponentMark ·)
    let whole := mantissa.takeWhile (· != '.')
    let fraction := mantissa.dropWhile (· != '.')
    let exponentFits :=
      exponent.isEmpty || (digitGroups Char.isDigit (signed (exponent.drop 1)).2).isSome
    let fractionFits := fraction.isEmpty || (digitGroups Char.isDigit (fraction.drop 1)).isSome
    (wholeDigits whole).isSome && fractionFits && exponentFits &&
      !(fraction.isEmpty && exponent.isEmpty)

/-! ## Moments -/

/-- A number of exactly so many decimal digits. -/
def fixedNumber (count : Nat) : Scan Nat := do
  return numberOf 10 (← takeExactly Char.isDigit count)

/-- Whether a year has a 29th of February. -/
def isLeapYear (year : Nat) : Bool := year % 4 == 0 && (year % 100 != 0 || year % 400 == 0)

/-- How many days a month has. -/
def daysIn (year month : Nat) : Nat :=
  if month == 2 then (if isLeapYear year then 29 else 28)
  else if month == 4 || month == 6 || month == 9 || month == 11 then 30
  else 31

/-- A date that the calendar has. -/
def date : Scan Date := do
  let year ← fixedNumber 4
  expect ['-']
  let month ← fixedNumber 2
  expect ['-']
  let day ← fixedNumber 2
  if 1 ≤ month ∧ month ≤ 12 ∧ 1 ≤ day ∧ day ≤ daysIn year month then return ⟨year, month, day⟩
  else fail

/-- A time of day; the seconds may be left out, and there may be a leap second. -/
def time : Scan Time := do
  let hour ← fixedNumber 2
  expect [':']
  let minute ← fixedNumber 2
  let second ← (do if ← accept [':'] then return some (← fixedNumber 2) else return none)
  let fraction ← (do
    if second.isSome && (← accept ['.']) then
      let digits ← takeWhile Char.isDigit
      if digits.isEmpty then fail else return some (digits.take 9)
    else return none)
  if hour ≤ 23 ∧ minute ≤ 59 ∧ second.getD 0 ≤ 60 then return ⟨hour, minute, second, fraction⟩
  else fail

/-- The offset after a date and a time, if there is one; it is a day at most. -/
def offset : Scan (Option Offset) := do
  match ← peek with
  | none => return none
  | some c =>
    discard next
    if c == 'Z' || c == 'z' then return some .utc
    else if c == '+' || c == '-' then
      let hours ← fixedNumber 2
      expect [':']
      let count := 60 * hours + (← fixedNumber 2)
      if count ≤ 24 * 60 then return some (.minutes (c == '+') count) else fail
    else fail

/-- Whether a character stands between a date and a time. -/
def isDateMark (c : Char) : Bool := c == 'T' || c == 't' || c == ' '

/-- A moment. -/
def moment : Scan Moment := do
  let front := (← rest).take 3
  if front.drop 2 == [':'] then return { time := some (← time) }
  else
    let day ← date
    match ← peek with
    | none => return { date := some day }
    | some c =>
      if isDateMark c then
        discard next
        let clock ← time
        return { date := some day, time := some clock, offset := ← offset }
      else fail

/-! ## All of them -/

/-- The value that a bare text denotes. -/
def bareValue? (cs : List Char) : Option Value :=
  if cs == ['t', 'r', 'u', 'e'] then some (.boolean true)
  else if cs == ['f', 'a', 'l', 's', 'e'] then some (.boolean false)
  else
    match integer? cs with
    | some n => some (.integer n)
    | none =>
      if isFloat cs then some (.float (String.ofList cs)) else (moment.run cs).map .moment

/-- Whether a character can stand in a bare value. -/
def isBareValueChar (c : Char) : Bool :=
  c.isAlphanum || c == '+' || c == '-' || c == '_' || c == '.' || c == ':'

/-- Whether a text has the form of a date, so that a time may follow after a space. -/
def looksLikeDate (cs : List Char) : Bool :=
  cs.length == 10 && cs.all fun c => c.isDigit || c == '-'

/-- A bare value. -/
def bareValue : Scan Value := do
  let front ← takeWhile isBareValueChar
  let spaced :=
    match ← rest with
    | ' ' :: c :: _ => looksLikeDate front && c.isDigit
    | _ => false
  let whole ← (do
    if spaced then
      discard next
      return front ++ ' ' :: (← takeWhile isBareValueChar)
    else return front)
  match bareValue? whole with
  | some v => return v
  | none => fail

end StepFlow.Toml
