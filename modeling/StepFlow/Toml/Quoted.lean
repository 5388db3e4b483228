import StepFlow.Text.Scan

/-! # Quoted text

The four forms of quoted text in a document: with double or single quotes, on one line or between
tripled quotes over several. Escapes count between double quotes only. Control characters other
than tabs are refused everywhere, and line ends are kept as they are written. -/

namespace StepFlow.Toml

open Text Text.Scan

/-- A **control** character, tab excepted: none of them can stand in a document. -/
def isControl (c : Char) : Bool := (c < ' ' && c != '\t') || c == '\x7f'

/-- A blank within a line. -/
def isSpace (c : Char) : Bool := c == ' ' || c == '\t'

/-- The value of a hexadecimal digit. -/
def hexValue (c : Char) : Nat :=
  if c.isDigit then c.toNat - '0'.toNat
  else if 'a' ≤ c then c.toNat - 'a'.toNat + 10
  else c.toNat - 'A'.toNat + 10

/-- Whether a character is a hexadecimal digit. -/
def isHexDigit (c : Char) : Bool := c.isDigit || ('a' ≤ c && c ≤ 'f') || ('A' ≤ c && c ≤ 'F')

/-- The number that hexadecimal digits denote. -/
def hexNumber (cs : List Char) : Nat := cs.foldl (fun n c => 16 * n + hexValue c) 0

/-- The character whose number is given by some count of hexadecimal digits. -/
def numbered (count : Nat) : Scan Char := do
  let n := hexNumber (← takeExactly isHexDigit count)
  if n < 0xd800 || (0xdfff < n && n < 0x110000) then return Char.ofNat n else fail

/-- What stands after the backslash of an escape. -/
def escaped : Scan Char := do
  match ← next with
  | 'b' => return '\x08'
  | 't' => return '\t'
  | 'n' => return '\n'
  | 'f' => return '\x0c'
  | 'r' => return '\r'
  | 'e' => return '\x1b'
  | '"' => return '"'
  | '\\' => return '\\'
  | 'x' => numbered 2
  | 'u' => numbered 4
  | 'U' => numbered 8
  | _ => fail

/-- A line end; whether there is one. -/
def lineEnd : Scan Bool := do
  if ← accept ['\n'] then return true else accept ['\r', '\n']

/-- The rest of a text in double quotes on one line. -/
def basicLine : Scan (List Char) := do
  let taken ← iterate (σ := List Char) (fun acc => do
    match ← next with
    | '"' => return (acc, false)
    | '\\' => return ((← escaped) :: acc, true)
    | c => if isControl c then fail else return (c :: acc, true)) []
  return taken.reverse

/-- The rest of a text in single quotes on one line. -/
def literalLine : Scan (List Char) := do
  let taken ← takeWhile fun c => c != '\'' && !isControl c
  expect ['\'']
  return taken

/-- The quotes at the end of a text in tripled quotes that belong to the text: up to two more than
the three that end it. -/
def closing (quote : Char) : Scan (List Char) := do
  let quotes ← takeWhile (· == quote)
  if 3 ≤ quotes.length ∧ quotes.length ≤ 5 then return quotes.drop 3 else fail

/-- A line end or a plain character inside a text over several lines. -/
def plain : Scan (List Char) := do
  if ← accept ['\r', '\n'] then return ['\r', '\n']
  let c ← next
  if c != '\n' && isControl c then fail else return [c]

/-- What a backslash stands for in a text over several lines: an escape, or nothing if it is the
last thing on its line; then the blanks and line ends after it go away too. -/
def continued : Scan (List Char) := do
  let spaces ← takeWhile isSpace
  if ← lineEnd then
    iterate (σ := Unit) (fun _ => do
      let blank ← takeWhile isSpace
      let ended ← lineEnd
      return ((), ended || !blank.isEmpty)) ()
    return []
  else if spaces.isEmpty then return [← escaped]
  else fail

/-- Whether three quotes come next. -/
def tripled (quote : Char) : Scan Bool := do
  return [quote, quote, quote].isPrefixOf (← rest)

/-- The rest of a text between tripled quotes; a line end right at its front does not count. -/
def lines (quote : Char) (escapes : Bool) : Scan (List Char) := do
  discard lineEnd
  let taken ← iterate (σ := List (List Char)) (fun acc => do
    if ← tripled quote then return ((← closing quote) :: acc, false)
    else if ← (if escapes then accept ['\\'] else pure false) then
      return ((← continued) :: acc, true)
    else return ((← plain) :: acc, true)) []
  return taken.reverse.flatten

/-- A quoted text on one line, as a key is written. -/
def quotedLine : Scan (List Char) := do
  if ← accept ['"'] then basicLine
  else if ← accept ['\''] then literalLine
  else fail

/-- A quoted text of any form, as a value is written. -/
def quoted : Scan (List Char) := do
  if ← accept ['"', '"', '"'] then lines '"' true
  else if ← accept ['\'', '\'', '\''] then lines '\'' false
  else quotedLine

end StepFlow.Toml
