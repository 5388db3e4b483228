import StepFlow.Text.Octets

/-! # Shell scripts

The commands that a shell script is made of, and the words that commands are made of. A word is a
list of parts, each of which knows whether it stands between quotes, since what a part expands to is
split into fields and matched against files only where it does not. -/

namespace StepFlow.Shell

open Text

/-- What `${...}` does with the value of a parameter besides giving it. -/
inductive Choice where
  /-- Give a word instead. -/
  | default
  /-- Give a word instead and assign it. -/
  | assign
  /-- Give a word if there is a value. -/
  | alternative
  /-- Fail with a word. -/
  | complain
deriving Repr, DecidableEq

mutual

/-- A **part** of a word. -/
inductive Part where
  | text (octets : Octets) (quoted : Bool)
  | parameter (p : Parameter) (quoted : Bool)
  | command (body : List Command) (quoted : Bool)
  | arithmetic (body : List Part) (quoted : Bool)

/-- The use of a **parameter**. -/
inductive Parameter where
  /-- Its value. -/
  | value (name : Octets)
  /-- The length of its value. -/
  | length (name : Octets)
  /-- Its value or something else; whether an empty value counts as none. -/
  | choice (name : Octets) (kind : Choice) (emptyIsNone : Bool) (word : List Part)
  /-- Its value without what matches a pattern at the front or at the end. -/
  | strip (name : Octets) (atEnd longest : Bool) (pattern : List Part)
  /-- Not a use that there is. -/
  | bad

/-- A **redirection** of a descriptor. -/
inductive Redirection where
  | input (fd : Nat) (target : List Part)
  | output (fd : Nat) (append : Bool) (target : List Part)
  | both (fd : Nat) (target : List Part)
  | duplicate (fd : Nat) (target : List Part)
  | document (fd : Nat) (body : List Part)

/-- A **command**. -/
inductive Command where
  /-- Assignments and words; the line it begins on. -/
  | simple (line : Nat) (assignments : List (Octets × List Part)) (words : List (List Part))
      (redirections : List Redirection)
  | pipeline (negated : Bool) (stages : List Command)
  | both (first second : Command)
  | either (first second : Command)
  | background (body : Command)
  | subshell (body : List Command)
  | group (body : List Command)
  | conditional (test body other : List Command)
  | loop (untilTrue : Bool) (test body : List Command)
  | each (name : Octets) (words : Option (List (List Part))) (body : List Command)
  | cases (word : List Part) (clauses : List (List (List Part) × List Command))
  | define (name : Octets) (body : Command)
  | redirected (body : Command) (redirections : List Redirection)

end

instance : Inhabited Command := ⟨.group []⟩

/-- Whether a command is a simple one. -/
def Command.isSimple : Command → Bool
  | .simple .. => true
  | _ => false

/-- The command that commands connected by pipes make; one alone stays what it is. -/
def Command.ofStages (negated : Bool) : List Command → Command
  | [stage] => if negated then .pipeline true [stage] else stage
  | stages => .pipeline negated stages

/-- A **word** is a list of parts. -/
abbrev Word := List Part

/-- A script as far as it could be read: lines of commands, and what is wrong after them, with the
number of its line. -/
structure Script where
  lines : List (List Command) := []
  fault : Option (Nat × String) := none

end StepFlow.Shell
