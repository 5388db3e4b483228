import StepFlow.Text.Octets

/-! # Patterns

What a shell matches names and values against: characters that stand for themselves, a question mark
for any character, a star for any number of them, and a set of characters between brackets. A quoted
character always stands for itself. -/

namespace StepFlow.Shell

open Text

/-- An element of a **pattern**. -/
inductive Glob where
  | literal (c : Char)
  | any
  | star
  /-- A set by its ranges; whether it is the characters outside of them. -/
  | set (negated : Bool) (ranges : List (Char × Char))
deriving Repr, DecidableEq

namespace Glob

/-- Whether an element that stands for one character stands for this one. -/
def admits : Glob → Char → Bool
  | .literal d, c => c == d
  | .any, _ | .star, _ => true
  | .set negated ranges, c => (ranges.any fun r => r.1 ≤ c && c ≤ r.2) != negated

/-- The ranges of a class of characters. -/
def classRanges (name : Octets) : List (Char × Char) :=
  match String.ofList name with
  | "alpha" => [('a', 'z'), ('A', 'Z')]
  | "digit" => [('0', '9')]
  | "alnum" => [('a', 'z'), ('A', 'Z'), ('0', '9')]
  | "upper" => [('A', 'Z')]
  | "lower" => [('a', 'z')]
  | "space" => [('\t', '\x0d'), (' ', ' ')]
  | "blank" => [('\t', '\t'), (' ', ' ')]
  | "xdigit" => [('0', '9'), ('a', 'f'), ('A', 'F')]
  | "punct" => [('!', '/'), (':', '@'), ('[', '`'), ('\x7b', '~')]
  | "cntrl" => [('\x00', '\x1f'), ('\x7f', '\x7f')]
  | "print" => [(' ', '~')]
  | "graph" => [('!', '~')]
  | _ => []

/-- The ranges up to the closing bracket, and what comes after it. The first character may be a
bracket that does not close. -/
def ranges : Nat → Bool → List (Char × Bool) → Option (List (Char × Char) × List (Char × Bool))
  | 0, _, _ => none
  | _ + 1, _, [] => none
  | fuel + 1, first, (c, quoted) :: rest =>
    if c == ']' && !quoted && !first then some ([], rest)
    else
      match c, rest with
      | '[', (':', _) :: more =>
        let name := (more.takeWhile (·.1 != ':')).map (·.1)
        match more.drop name.length with
        | (':', _) :: (']', _) :: after =>
          (ranges fuel false after).map fun r => (classRanges name ++ r.1, r.2)
        | _ => (ranges fuel false rest).map fun r => ((c, c) :: r.1, r.2)
      | _, ('-', false) :: (d, dq) :: after =>
        if d == ']' && !dq then (ranges fuel false rest).map fun r => ((c, c) :: r.1, r.2)
        else (ranges fuel false after).map fun r => ((c, d) :: r.1, r.2)
      | _, _ => (ranges fuel false rest).map fun r => ((c, c) :: r.1, r.2)

/-- The pattern of characters of which some are quoted. -/
def ofChars : Nat → List (Char × Bool) → List Glob
  | 0, _ => []
  | _ + 1, [] => []
  | fuel + 1, (c, quoted) :: rest =>
    if quoted then .literal c :: ofChars fuel rest
    else
      match c with
      | '*' => .star :: ofChars fuel rest
      | '?' => .any :: ofChars fuel rest
      | '[' =>
        let (negated, inner) :=
          match rest with
          | ('!', false) :: more | ('^', false) :: more => (true, more)
          | _ => (false, rest)
        match ranges (inner.length + 1) true inner with
        | some (rs, after) => .set negated rs :: ofChars fuel after
        | none => .literal '[' :: ofChars fuel rest
      | _ => .literal c :: ofChars fuel rest

/-- The pattern of characters of which some are quoted. -/
def parse (cs : List (Char × Bool)) : List Glob := ofChars (cs.length + 1) cs

/-- Whether a text matches a pattern as a whole. -/
def isMatch : List Glob → Octets → Bool
  | [], [] => true
  | [], _ :: _ => false
  | .star :: p, [] => isMatch p []
  | .star :: p, c :: t => isMatch p (c :: t) || isMatch (.star :: p) t
  | _ :: _, [] => false
  | g :: p, c :: t => g.admits c && isMatch p t
termination_by p t => p.length + t.length

/-- Whether a pattern has elements that do not stand for themselves. -/
def isWild (p : List Glob) : Bool :=
  p.any fun
    | .literal _ => false
    | _ => true

end Glob

/-- What is left of a text when a match of a pattern is taken off its front or its end. -/
def stripMatch (p : List Glob) (atEnd longest : Bool) (text : Octets) : Octets :=
  let counts := List.range (text.length + 1)
  let fits (count : Nat) : Bool :=
    Glob.isMatch p (if atEnd then text.drop (text.length - count) else text.take count)
  match (if longest then counts.reverse else counts).find? fits with
  | some count => if atEnd then text.take (text.length - count) else text.drop count
  | none => text

end StepFlow.Shell
