import StepFlow.Files
import StepFlow.Shell.Arithmetic

/-! # Conditions

What `test` finds out about texts, numbers and files. Its arguments are read as conditions connected
by `-a` and `-o`, but three or four of them may be meant in another way. -/

namespace StepFlow.Shell.Condition

open Text

/-- Why there is no answer, as `test` tells it. -/
abbrev Answer : Type := Except String Bool

/-- Whether a text is an operator on the text after it. -/
def isUnary (cs : Octets) : Bool :=
  match cs with
  | ['-', c] => "nzefdrwxsLhpSbctgkuOG".toList.contains c
  | _ => false

/-- The operators between two texts. -/
def binaryNames : List String :=
  ["=", "==", "!=", "<", ">", "-eq", "-ne", "-gt", "-ge", "-lt", "-le", "-nt", "-ot", "-ef"]

/-- Whether a text is an operator between two others. -/
def isBinary (cs : Octets) : Bool := binaryNames.contains (String.ofList cs)

/-- The number that a text denotes; nothing else may be in it but blanks around it. -/
def number (cs : Octets) : Except String Int :=
  let isBlank (c : Char) : Bool := c == ' ' || c == '\t' || c == '\n'
  let trimmed := ((cs.dropWhile isBlank).reverse.dropWhile isBlank).reverse
  let (negative, digits) :=
    match trimmed with
    | '-' :: rest => (true, rest)
    | '+' :: rest => (false, rest)
    | _ => (false, trimmed)
  if digits.isEmpty || !digits.all Char.isDigit then
    .error ("Illegal number: " ++ Octets.text cs)
  else
    let n : Int := Int.ofNat (digits.foldl (fun n c => 10 * n + (c.toNat - '0'.toNat)) 0)
    .ok (if negative then -n else n)

/-- What a unary operator finds out. -/
def unary (files : Files) (op operand : Octets) : Answer :=
  let node := ((files.locate (Octets.text operand)).toOption).bind (·.node)
  match op with
  | ['-', 'n'] => .ok (!operand.isEmpty)
  | ['-', 'z'] => .ok operand.isEmpty
  | ['-', 'd'] => .ok (node.any (·.isDirectory))
  | ['-', 'f'] =>
    match node with
    | some (.file _) => .ok true
    | _ => .ok false
  | ['-', 's'] =>
    match node with
    | some (.file content) => .ok (content.size > 0)
    | some (.directory _) => .ok true
    | _ => .ok false
  | ['-', 'c'] =>
    match node with
    | some .sink => .ok true
    | _ => .ok false
  | ['-', 'e'] | ['-', 'r'] | ['-', 'w'] | ['-', 'O'] | ['-', 'G'] => .ok node.isSome
  | ['-', 'x'] => .ok (node.any (·.isDirectory))
  | ['-', 't'] => do
    discard (number operand)
    return false
  | _ => .ok false

/-- What a binary operator finds out. -/
def binary (files : Files) (a op b : Octets) : Answer :=
  match String.ofList op with
  | "=" | "==" => .ok (a == b)
  | "!=" => .ok (a != b)
  | "<" => .ok (decide (a < b))
  | ">" => .ok (decide (b < a))
  | "-eq" => do return (← number a) == (← number b)
  | "-ne" => do return (← number a) != (← number b)
  | "-gt" => do return (← number a) > (← number b)
  | "-ge" => do return (← number a) ≥ (← number b)
  | "-lt" => do return (← number a) < (← number b)
  | "-le" => do return (← number a) ≤ (← number b)
  | "-ef" =>
    let place (cs : Octets) := (files.locate (Octets.text cs)).toOption.map (·.names)
    .ok ((place a).isSome && place a == place b)
  | _ => .ok false

/-- What a text is where a condition is read. -/
inductive Kind where
  | operand
  | unary
  | binary
  | negation
  | both
  | either
  | opening
  | closing
  /-- There is no text. -/
  | ending
deriving Repr, DecidableEq

/-- What the first of some texts is. An operator on one text is none where it is the last text, and
where an operator between two texts follows it. A parenthesis that is the last text opens
nothing. -/
def kind : List Octets → Kind
  | [] => .ending
  | a :: rest =>
    let isOperand :=
      match rest with
      | [] => true
      | [_] => false
      | b :: _ => isBinary b
    if isUnary a then (if isOperand then .operand else .unary)
    else if isBinary a then .binary
    else
      match a with
      | ['!'] => .negation
      | ['-', 'a'] => .both
      | ['-', 'o'] => .either
      | ['('] => if rest.isEmpty then .operand else .opening
      | [')'] => .closing
      | _ => .operand

/-- The complaint about an operator that has nothing to work on. -/
def argumentExpected (op : Octets) : String := Octets.text op ++ ": argument expected"

/-! Each reader below is told what the first text counts as. It gives what it found out, and the
texts from the last one on that it has used. -/

mutual

/-- A condition without connectives. -/
def single (files : Files) : Nat → Kind → List Octets → Except String (Bool × List Octets)
  | 0, _, _ => .error "argument expected"
  | fuel + 1, first, texts => do
    match first with
    | .negation =>
      let next := kind texts.tail
      let (b, left) ← single files fuel next (if next == .ending then texts else texts.tail)
      return (!b, left)
    | .ending => return (false, texts)
    | .opening =>
      let inner := texts.tail
      if kind inner == .closing then return (false, inner)
      else
        let (b, left) ← disjunction files fuel (kind inner) inner
        if kind left.tail == .closing then return (b, left.tail)
        else throw "closing paren expected"
    | .unary =>
      match texts with
      | op :: a :: rest => return (← unary files op a, a :: rest)
      | _ => throw (argumentExpected (texts.headD []))
    | _ =>
      if kind texts.tail == .binary then
        match texts with
        | a :: op :: b :: rest => return (← binary files a op b, b :: rest)
        | _ => throw (argumentExpected (texts.tail.headD []))
      else return (!(texts.headD []).isEmpty, texts)

/-- Conditions connected by `-a`. -/
def conjunction (files : Files) : Nat → Kind → List Octets → Except String (Bool × List Octets)
  | 0, _, _ => .error "argument expected"
  | fuel + 1, first, texts => do
    let (a, left) ← single files fuel first texts
    if kind left.tail == .both then
      let (b, left) ← conjunction files fuel (kind (left.drop 2)) (left.drop 2)
      return (a && b, left)
    else return (a, left)

/-- Conditions connected by `-o`. -/
def disjunction (files : Files) : Nat → Kind → List Octets → Except String (Bool × List Octets)
  | 0, _, _ => .error "argument expected"
  | fuel + 1, first, texts => do
    let (a, left) ← conjunction files fuel first texts
    if kind left.tail == .either then
      let (b, left) ← disjunction files fuel (kind (left.drop 2)) (left.drop 2)
      return (a || b, left)
    else return (a, left)

end

/-- Reads arguments as connected conditions, the first one counting as something. -/
def connected (files : Files) (first : Kind) (args : List Octets) : Answer := do
  let (b, left) ← disjunction files (4 * args.length + 8) first args
  match left with
  | op :: _ :: _ => throw (Octets.text op ++ ": unexpected operator")
  | _ => return b

/-- What `test` finds out about its arguments. Of three or four of them the first may be a negation
of the others, or the first and the last may be parentheses around them. -/
def eval (files : Files) (args : List Octets) : Answer :=
  match args with
  | [] => .ok false
  | [a, op, b] =>
    if isBinary op then connected files .operand args
    else framed a [op] b
  | [a, b, c, d] => framed a [b, c] d
  | _ => connected files (kind args) args
where
  /-- What is found out about texts between two others. -/
  framed (a : Octets) (inner : List Octets) (z : Octets) : Answer :=
    if a == ['('] && z == [')'] then connected files (kind inner) inner
    else if a == ['!'] then (negated (inner ++ [z])).map (!·)
    else connected files (kind args) args
  /-- What is found out about texts that stand behind a negation; a second one changes nothing. -/
  negated (rest : List Octets) : Answer :=
    match rest with
    | [a, op, b] =>
      if isBinary op then connected files .operand rest
      else if a == ['('] && b == [')'] then connected files (kind [op]) [op]
      else if a == ['!'] then connected files (kind [op, b]) [op, b]
      else connected files (kind rest) rest
    | _ => connected files (kind rest) rest

end StepFlow.Shell.Condition
