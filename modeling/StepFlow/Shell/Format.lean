import StepFlow.Shell.Arithmetic

/-! # Formatted output

The escapes in what `echo` puts out, and the formats of `printf`. A format is used again as long as
there are arguments left for it. -/

namespace StepFlow.Shell

open Text

/-- Takes up to some number of octal digits off a text: their value and what is left. -/
def octalFront (count : Nat) (cs : Octets) : Nat × Octets :=
  let digits := (cs.take count).takeWhile fun c => '0' ≤ c && c ≤ '7'
  (digits.foldl (fun n c => 8 * n + (c.toNat - '0'.toNat)) 0, cs.drop digits.length)

/-- The octet of a number. -/
def octet (n : Nat) : Char := Char.ofNat (n % 256)

/-- What a backslash and what follows it stand for, and what is left. -/
def escapeFront : Octets → Octets × Octets
  | 'a' :: rest => (['\x07'], rest)
  | 'b' :: rest => (['\x08'], rest)
  | 'e' :: rest => (['\x1b'], rest)
  | 'f' :: rest => (['\x0c'], rest)
  | 'n' :: rest => (['\n'], rest)
  | 'r' :: rest => (['\x0d'], rest)
  | 't' :: rest => (['\t'], rest)
  | 'v' :: rest => (['\x0b'], rest)
  | '\\' :: rest => (['\\'], rest)
  | c :: rest =>
    if '0' ≤ c && c ≤ '7' then
      let (n, left) := octalFront 3 (c :: rest)
      ([octet n], left)
    else (['\\', c], rest)
  | [] => (['\\'], [])

/-- A text with its escapes replaced, and whether it says that nothing is to follow. In a text a
zero may stand in front of the digits of an octet. -/
def unescape : Nat → Octets → Octets × Bool
  | 0, cs => (cs, false)
  | _ + 1, [] => ([], false)
  | fuel + 1, '\\' :: rest =>
    match rest with
    | 'c' :: _ => ([], true)
    | '0' :: digits =>
      let (n, left) := octalFront 3 digits
      let (out, stop) := unescape fuel left
      (octet n :: out, stop)
    | _ =>
      let (cs, left) := escapeFront rest
      let (out, stop) := unescape fuel left
      (cs ++ out, stop)
  | fuel + 1, c :: rest =>
    let plain := c :: rest.takeWhile (· != '\\')
    let (out, stop) := unescape fuel (rest.drop (plain.length - 1))
    (plain ++ out, stop)

/-- A text with its escapes replaced, and whether it says that nothing is to follow. -/
def unescapeAll (cs : Octets) : Octets × Bool := unescape (cs.length + 1) cs

/-- What `echo` puts out. -/
def echoText (args : List Octets) : Octets :=
  let (bare, args) :=
    match args with
    | ['-', 'n'] :: rest => (true, rest)
    | _ => (false, args)
  let rec go : List Octets → Octets
    | [] => if bare then [] else ['\n']
    | [a] =>
      let (out, stop) := unescapeAll a
      if stop || bare then out else out ++ ['\n']
    | a :: rest =>
      let (out, stop) := unescapeAll a
      if stop then out else out ++ ' ' :: go rest
  go args

/-! ## Formats -/

/-- How a value is laid out. -/
structure Layout where
  left : Bool := false
  plus : Bool := false
  space : Bool := false
  zero : Bool := false
  alternate : Bool := false
  width : Nat := 0
  precision : Option Nat := none

/-- Pads a text to the width of a layout. -/
def Layout.pad (l : Layout) (cs : Octets) : Octets :=
  let blanks := List.replicate (l.width - cs.length) ' '
  if l.left then cs ++ blanks else blanks ++ cs

/-- Pads a number to the width of a layout: a sign, and digits. -/
def Layout.padNumber (l : Layout) (sign digits : Octets) : Octets :=
  let digits :=
    match l.precision with
    | some p => List.replicate (p - digits.length) '0' ++ digits
    | none => digits
  if l.zero && !l.left && l.precision.isNone then
    sign ++ List.replicate (l.width - sign.length - digits.length) '0' ++ digits
  else l.pad (sign ++ digits)

/-- The sign of a number in a layout. -/
def Layout.sign (l : Layout) (negative : Bool) : Octets :=
  if negative then ['-'] else if l.plus then ['+'] else if l.space then [' '] else []

/-- What formatting has put out so far. -/
structure Printed where
  out : Octets := []
  /-- The arguments that are left. -/
  args : List Octets
  /-- Whether an argument was used. -/
  used : Bool := false
  complaints : List Octets := []
  /-- A conversion that is none, at which formatting has stopped. -/
  unknown : Option Octets := none
  stopped : Bool := false

namespace Printed

/-- Puts out some octets. -/
def put (p : Printed) (cs : Octets) : Printed := { p with out := p.out ++ cs }

/-- Takes the next argument. -/
def next (p : Printed) : Option Octets × Printed :=
  match p.args with
  | a :: rest => (some a, { p with args := rest, used := true })
  | [] => (none, p)

/-- Complains about an argument. -/
def complain (p : Printed) (arg : Octets) (words : String) : Printed :=
  { p with complaints := p.complaints ++ [arg ++ words.toList] }

/-- Takes the next argument as a number. -/
def nextNumber (p : Printed) : Int × Printed :=
  let (arg, p) := p.next
  match arg with
  | none | some [] => (0, p)
  | some ('\'' :: c :: _) | some ('"' :: c :: _) => (c.toNat, p)
  | some cs =>
    let (negative, digits) :=
      match cs with
      | '-' :: rest => (true, rest)
      | '+' :: rest => (false, rest)
      | _ => (false, cs)
    let (n, left) := Arithmetic.numberFront digits
    let n := if negative then -n else n
    if !(digits.head?.any Char.isDigit) then (0, p.complain cs ": expected numeric value")
    else if (Arithmetic.naturalFront digits).1 > 0xffffffffffffffff then
      (n, p.complain cs ": Numerical result out of range")
    else if left.isEmpty then (n, p)
    else (n, p.complain cs ": not completely converted")

end Printed

/-- Some digits in a base. -/
def digitsIn (base n : Nat) : Octets := Nat.toDigits base n

/-- A decimal number with places, from its text. -/
def fixedPoint (places : Nat) (cs : Octets) : Bool × Octets :=
  let (negative, cs) :=
    match cs with
    | '-' :: rest => (true, rest)
    | '+' :: rest => (false, rest)
    | _ => (false, cs)
  let number (ds : Octets) : Nat := ds.foldl (fun n c => 10 * n + (c.toNat - '0'.toNat)) 0
  let whole := cs.takeWhile Char.isDigit
  let fraction := ((cs.drop whole.length).drop 1).takeWhile Char.isDigit
  let scaled := number (whole ++ fraction) * Nat.pow 10 places
  let unit := Nat.pow 10 fraction.length
  let below := scaled / unit
  let twice := 2 * (scaled % unit)
  let n := if twice > unit || (twice == unit && below % 2 == 1) then below + 1 else below
  let digits := digitsIn 10 n
  let digits := List.replicate (places + 1 - digits.length) '0' ++ digits
  let front := digits.take (digits.length - places)
  (negative, if places == 0 then front else front ++ '.' :: digits.drop front.length)

/-- Puts out the next argument as a conversion says. -/
def convert (l : Layout) (conversion : Char) (p : Printed) : Printed :=
  let cut (cs : Octets) : Octets :=
    match l.precision with
    | some n => cs.take n
    | none => cs
  match conversion with
  | 's' =>
    let (arg, p) := p.next
    p.put (l.pad (cut (arg.getD [])))
  | 'b' =>
    let (arg, p) := p.next
    let (out, stop) := unescapeAll (arg.getD [])
    { p.put (l.pad (cut out)) with stopped := stop }
  | 'c' =>
    let (arg, p) := p.next
    p.put (l.pad ((arg.getD []).take 1))
  | 'd' | 'i' =>
    let (n, p) := p.nextNumber
    p.put (l.padNumber (l.sign (n < 0)) (digitsIn 10 n.natAbs))
  | 'u' =>
    let (n, p) := p.nextNumber
    p.put (l.padNumber [] (digitsIn 10 (Arithmetic.bits n)))
  | 'o' =>
    let (n, p) := p.nextNumber
    p.put (l.padNumber (if l.alternate then ['0'] else []) (digitsIn 8 (Arithmetic.bits n)))
  | 'x' =>
    let (n, p) := p.nextNumber
    let mark := if l.alternate && n != 0 then ['0', 'x'] else []
    p.put (l.padNumber mark (digitsIn 16 (Arithmetic.bits n)))
  | 'X' =>
    let (n, p) := p.nextNumber
    let mark := if l.alternate && n != 0 then ['0', 'X'] else []
    p.put (l.padNumber mark ((digitsIn 16 (Arithmetic.bits n)).map Char.toUpper))
  | _ =>
    let (arg, p) := p.next
    let (negative, digits) := fixedPoint (l.precision.getD 6) (arg.getD [])
    let sign := l.sign negative
    if l.zero && !l.left then
      p.put (sign ++ List.replicate (l.width - sign.length - digits.length) '0' ++ digits)
    else p.put (l.pad (sign ++ digits))

/-- The flags at the front of a conversion. -/
def flagsFront (l : Layout) : Octets → Layout × Octets
  | '-' :: rest => flagsFront { l with left := true } rest
  | '+' :: rest => flagsFront { l with plus := true } rest
  | ' ' :: rest => flagsFront { l with space := true } rest
  | '0' :: rest => flagsFront { l with zero := true } rest
  | '#' :: rest => flagsFront { l with alternate := true } rest
  | cs => (l, cs)

/-- The number at the front of a text, or that of the next argument where there is a star. -/
def sizeFront (cs : Octets) (p : Printed) : Int × Octets × Printed :=
  match cs with
  | '*' :: rest =>
    let (n, p) := p.nextNumber
    (n, rest, p)
  | _ =>
    let digits := cs.takeWhile Char.isDigit
    (Int.ofNat (digits.foldl (fun n c => 10 * n + (c.toNat - '0'.toNat)) 0),
      cs.drop digits.length, p)

/-- Goes through a format once. -/
def formatOnce : Nat → Octets → Printed → Printed
  | 0, _, p => p
  | _ + 1, [], p => p
  | fuel + 1, '\\' :: rest, p =>
    match rest with
    | 'c' :: _ => { p with stopped := true }
    | _ =>
      let (cs, left) := escapeFront rest
      formatOnce fuel left (p.put cs)
  | fuel + 1, '%' :: '%' :: rest, p => formatOnce fuel rest (p.put ['%'])
  | fuel + 1, '%' :: rest, p =>
    let (l, rest) := flagsFront {} rest
    let (width, rest, p) := sizeFront rest p
    let l := { l with left := l.left || width < 0, width := width.natAbs }
    let (l, rest, p) :=
      match rest with
      | '.' :: rest =>
        let (precision, rest, p) := sizeFront rest p
        ({ l with precision := if precision < 0 then none else some precision.toNat }, rest, p)
      | _ => (l, rest, p)
    match rest with
    | [] => { p with unknown := some ['%'], stopped := true }
    | c :: rest =>
      if "sbcdiuoxXfFeEgG".toList.contains c then
        let p := convert l c p
        if p.stopped then p else formatOnce fuel rest p
      else { p with unknown := some ['%', c], stopped := true }
  | fuel + 1, c :: rest, p => formatOnce fuel rest (p.put [c])

/-- Goes through a format until no argument is left for it. -/
def formatAll (format : Octets) : Nat → Printed → Printed
  | 0, p => p
  | fuel + 1, p =>
    let p := formatOnce (format.length + 1) format { p with used := false }
    if p.stopped || p.args.isEmpty || !p.used then p else formatAll format fuel p

/-- What `printf` puts out and complains about. -/
def Printed.ofFormat (format : Octets) (args : List Octets) : Printed :=
  formatAll format (args.length + 1) { args := args }

end StepFlow.Shell
