/-! # Blank characters

The characters that count as white space around a name, a requirement or a level, and the removal
of a run of them at both ends of a text. The class is the one Unicode calls `White_Space`; it is
larger than the class of ASCII blanks, so a no-break space or a line separator is trimmed as well.

Main statements: what is left after dropping blanks does not begin with one (`dropBlanks_head`), and
a text that does not begin with one loses nothing (`dropBlanks_of_head`). -/

namespace StepFlow.Text

/-- A **blank** is a character of the Unicode class `White_Space`. -/
def isBlank (c : Char) : Bool :=
  ('\x09' ≤ c && c ≤ '\x0d') || c == ' ' || c == '\u0085' || c == '\u00a0' || c == '\u1680' ||
    ('\u2000' ≤ c && c ≤ '\u200a') || c == '\u2028' || c == '\u2029' || c == '\u202f' ||
    c == '\u205f' || c == '\u3000'

/-! ## Lists of characters -/

/-- The characters without the blanks at the front. -/
def dropBlanks (cs : List Char) : List Char := cs.dropWhile isBlank

/-- The characters without the blanks at either end. -/
def trimChars (cs : List Char) : List Char := (dropBlanks (dropBlanks cs).reverse).reverse

@[simp] theorem dropBlanks_nil : dropBlanks [] = [] := rfl

@[simp] theorem trimChars_nil : trimChars [] = [] := rfl

/-- What is left after dropping blanks does not begin with one. -/
theorem dropBlanks_head {cs rest : List Char} {c : Char} (h : dropBlanks cs = c :: rest) :
    isBlank c = false := by
  induction cs with
  | nil => simp at h
  | cons d ds ih =>
    cases hd : isBlank d with
    | true => exact ih (by simpa [dropBlanks, hd] using h)
    | false =>
      have same : d :: ds = c :: rest := by simpa [dropBlanks, hd] using h
      exact (List.cons.inj same).1 ▸ hd

/-- A text that does not begin with a blank loses nothing at the front. -/
theorem dropBlanks_of_head {cs : List Char} (h : ∀ c rest, cs = c :: rest → isBlank c = false) :
    dropBlanks cs = cs := by
  cases cs with
  | nil => rfl
  | cons c rest => simp [dropBlanks, h c rest rfl]

/-! ## Texts -/

/-- The text without the blanks at either end. -/
def trim (s : String) : String := String.ofList (trimChars s.toList)

/-- Whether nothing but blanks is in the text. -/
def isAllBlank (s : String) : Bool := (trim s).isEmpty

end StepFlow.Text
