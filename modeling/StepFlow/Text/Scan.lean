/-! # Scanners

A **scanner** reads something from the front of a text and leaves the rest, or fails. Scanners are
put together with `do`. A scanner that goes on as long as there is something to read is made by
`iterate`; it ends because every round has to leave less text than the one before. -/

namespace StepFlow.Text

/-- A **scanner**: what was read and the rest, or nothing when it fails. -/
abbrev Scan (α : Type) : Type := StateT (List Char) Option α

namespace Scan

variable {α σ : Type}

/-- Fails. -/
def fail : Scan α := fun _ => none

/-- The next character, if there is one; nothing is taken. -/
def peek : Scan (Option Char) := fun cs => some (cs.head?, cs)

/-- The text that is left; nothing is taken. -/
def rest : Scan (List Char) := fun cs => some (cs, cs)

/-- Takes the next character. -/
def next : Scan Char
  | [] => none
  | c :: cs => some (c, cs)

/-- Takes a text if it comes next; whether it did. -/
def accept (text : List Char) : Scan Bool := fun cs =>
  if text.isPrefixOf cs then some (true, cs.drop text.length) else some (false, cs)

/-- Takes a text that must come next. -/
def expect (text : List Char) : Scan Unit := fun cs =>
  if text.isPrefixOf cs then some ((), cs.drop text.length) else none

/-- Takes all characters of a kind that come next. -/
def takeWhile (p : Char → Bool) : Scan (List Char) := fun cs =>
  some (cs.takeWhile p, cs.dropWhile p)

/-- Takes some number of characters of a kind; there must be as many. -/
def takeExactly (p : Char → Bool) (count : Nat) : Scan (List Char) := fun cs =>
  let taken := cs.take count
  if taken.length = count ∧ taken.all p then some (taken, cs.drop count) else none

/-- Passes a value through rounds of a scanner. A round says whether to go on after it, and one
that goes on must have taken something. -/
def iterate (round : σ → Scan (σ × Bool)) (s : σ) : Scan σ := fun cs =>
  match round s cs with
  | none => none
  | some ((t, more), left) =>
    if more then if _h : left.length < cs.length then iterate round t left else none
    else some (t, left)
termination_by cs => cs.length

/-- Reads a whole text: what the scanner reads if it leaves nothing. -/
def run (scan : Scan α) (text : List Char) : Option α :=
  match scan text with
  | some (a, []) => some a
  | _ => none

end Scan

end StepFlow.Text
