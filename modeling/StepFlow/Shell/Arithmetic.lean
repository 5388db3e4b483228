import StepFlow.Text.Octets

/-! # Arithmetic

The expressions between double parentheses. Numbers are signed and have 64 bits; a name stands for
the value of a variable, and a variable may be assigned on the way. -/

namespace StepFlow.Shell.Arithmetic

open Text

/-- A binary operation. -/
inductive Operation where
  | or | xor | and
  | equal | notEqual | less | lessEqual | greater | greaterEqual
  | shiftLeft | shiftRight
  | add | subtract | multiply | divide | remainder
deriving Repr, DecidableEq

/-- An **expression**. -/
inductive Expression where
  | number (n : Int)
  | variable (name : Octets)
  | not (e : Expression)
  | complement (e : Expression)
  | negate (e : Expression)
  | operation (o : Operation) (a b : Expression)
  | both (a b : Expression)
  | either (a b : Expression)
  | choice (test a b : Expression)
  | assign (name : Octets) (o : Option Operation) (e : Expression)
deriving Repr

/-! ## Tokens -/

/-- A token of an expression. -/
inductive Token where
  | number (n : Int)
  | name (cs : Octets)
  | symbol (s : String)
deriving Repr, DecidableEq

/-- Brings a number into 64 bits. -/
def wrap (n : Int) : Int := Int.bmod n 18446744073709551616

/-- Brings a number that is too large to the largest one. -/
def clamp (n : Nat) : Int := Int.ofNat (Nat.min n 9223372036854775807)

/-- The value of a digit in a base. -/
def digit? (base : Nat) (c : Char) : Option Nat :=
  let v :=
    if c.isDigit then c.toNat - '0'.toNat
    else if 'a' ≤ c && c ≤ 'z' then c.toNat - 'a'.toNat + 10
    else if 'A' ≤ c && c ≤ 'Z' then c.toNat - 'A'.toNat + 10
    else base
  if v < base then some v else none

/-- The number at the front of a text, in base ten, eight or sixteen by how it begins, and what is
left. -/
def naturalFront (cs : Octets) : Nat × Octets :=
  let (base, digits) :=
    match cs with
    | '0' :: 'x' :: rest | '0' :: 'X' :: rest => (16, rest)
    | '0' :: _ => (8, cs)
    | _ => (10, cs)
  let taken := digits.takeWhile fun c => (digit? base c).isSome
  let n := taken.foldl (fun n c => base * n + (digit? base c).getD 0) 0
  (n, digits.drop taken.length)

/-- The number at the front of a text as far as it can be represented, and what is left. -/
def numberFront (cs : Octets) : Int × Octets :=
  let (n, left) := naturalFront cs
  (clamp n, left)

/-- The symbols, longer ones before those that they begin with. -/
def symbols : List String :=
  ["<<=", ">>=", "<<", ">>", "<=", ">=", "==", "!=", "&&", "||", "*=", "/=", "%=", "+=", "-=", "&=",
    "^=", "|=", "=", "<", ">", "+", "-", "*", "/", "%", "&", "^", "|", "!", "~", "?", ":", "(", ")"]

/-- The tokens of a text; none when a character belongs to no token. -/
def tokens : Nat → Octets → Option (List Token)
  | 0, _ => none
  | _ + 1, [] => some []
  | fuel + 1, c :: rest =>
    if c == ' ' || c == '\t' || c == '\n' then tokens fuel rest
    else if c.isDigit then
      let (n, left) := numberFront (c :: rest)
      (tokens fuel left).map (.number n :: ·)
    else if c.isAlpha || c == '_' then
      let name := c :: rest.takeWhile fun c => c.isAlphanum || c == '_'
      (tokens fuel (rest.drop (name.length - 1))).map (.name name :: ·)
    else
      match symbols.find? fun s => s.toList.isPrefixOf (c :: rest) with
      | some s => (tokens fuel ((c :: rest).drop s.length)).map (.symbol s :: ·)
      | none => none

/-! ## Expressions -/

/-- Why an expression has no value. -/
inductive Fault where
  | expectingPrimary
  | expectingEnd
  | divisionByZero
  | illegalNumber (text : Octets)
deriving Repr, DecidableEq

/-- What reading an expression gives: the expression and the tokens that are left. -/
abbrev Result : Type := Except Fault (Expression × List Token)

/-- The operation of a symbol and how tightly it binds. -/
def binary? : String → Option (Operation × Nat)
  | "|" => some (.or, 1)
  | "^" => some (.xor, 2)
  | "&" => some (.and, 3)
  | "==" => some (.equal, 4)
  | "!=" => some (.notEqual, 4)
  | "<" => some (.less, 5)
  | "<=" => some (.lessEqual, 5)
  | ">" => some (.greater, 5)
  | ">=" => some (.greaterEqual, 5)
  | "<<" => some (.shiftLeft, 6)
  | ">>" => some (.shiftRight, 6)
  | "+" => some (.add, 7)
  | "-" => some (.subtract, 7)
  | "*" => some (.multiply, 8)
  | "/" => some (.divide, 8)
  | "%" => some (.remainder, 8)
  | _ => none

/-- The operation of an assignment, which for the plain one is none. -/
def assignment? : String → Option (Option Operation)
  | "=" => some none
  | "*=" => some (some .multiply)
  | "/=" => some (some .divide)
  | "%=" => some (some .remainder)
  | "+=" => some (some .add)
  | "-=" => some (some .subtract)
  | "<<=" => some (some .shiftLeft)
  | ">>=" => some (some .shiftRight)
  | "&=" => some (some .and)
  | "^=" => some (some .xor)
  | "|=" => some (some .or)
  | _ => none

mutual

/-- An operand. -/
def primary : Nat → List Token → Result
  | 0, _ => .error .expectingPrimary
  | fuel + 1, ts =>
    match ts with
    | .number n :: rest => .ok (.number n, rest)
    | .name x :: rest => .ok (.variable x, rest)
    | .symbol "(" :: rest => do
      let (e, left) ← expression fuel rest
      match left with
      | .symbol ")" :: left => .ok (e, left)
      | _ => .error .expectingPrimary
    | .symbol "!" :: rest => do
      let (e, left) ← primary fuel rest
      return (.not e, left)
    | .symbol "~" :: rest => do
      let (e, left) ← primary fuel rest
      return (.complement e, left)
    | .symbol "-" :: rest => do
      let (e, left) ← primary fuel rest
      return (.negate e, left)
    | .symbol "+" :: rest => primary fuel rest
    | _ => .error .expectingPrimary

/-- Operations of at least some binding strength, after their first operand. -/
def operations : Nat → Nat → Expression → List Token → Result
  | 0, _, _, _ => .error .expectingPrimary
  | fuel + 1, strength, a, ts =>
    match ts with
    | .symbol s :: rest =>
      match binary? s with
      | some (o, level) =>
        if level ≥ strength then do
          let (b, left) ← primary fuel rest
          let (b, left) ← operations fuel (level + 1) b left
          operations fuel strength (.operation o a b) left
        else .ok (a, ts)
      | none => .ok (a, ts)
    | _ => .ok (a, ts)

/-- Expressions of which all have to hold. -/
def conjunction : Nat → List Token → Result
  | 0, _ => .error .expectingPrimary
  | fuel + 1, ts => do
    let (a, left) ← primary fuel ts
    let (a, left) ← operations fuel 1 a left
    match left with
    | .symbol "&&" :: rest => do
      let (b, left) ← conjunction fuel rest
      return (.both a b, left)
    | _ => return (a, left)

/-- Expressions of which one has to hold. -/
def disjunction : Nat → List Token → Result
  | 0, _ => .error .expectingPrimary
  | fuel + 1, ts => do
    let (a, left) ← conjunction fuel ts
    match left with
    | .symbol "||" :: rest => do
      let (b, left) ← disjunction fuel rest
      return (.either a b, left)
    | _ => return (a, left)

/-- A choice, or what there is to choose from. -/
def conditional : Nat → List Token → Result
  | 0, _ => .error .expectingPrimary
  | fuel + 1, ts => do
    let (test, left) ← disjunction fuel ts
    match left with
    | .symbol "?" :: rest => do
      let (a, left) ← expression fuel rest
      match left with
      | .symbol ":" :: rest => do
        let (b, left) ← conditional fuel rest
        return (.choice test a b, left)
      | _ => .error .expectingPrimary
    | _ => return (test, left)

/-- An expression, perhaps an assignment. -/
def expression : Nat → List Token → Result
  | 0, _ => .error .expectingPrimary
  | fuel + 1, ts =>
    match ts with
    | .name x :: .symbol s :: rest =>
      match assignment? s with
      | some o => do
        let (e, left) ← expression fuel rest
        return (.assign x o e, left)
      | none => conditional fuel ts
    | _ => conditional fuel ts

end

/-- Reads an expression; nothing at all stands for zero. -/
def parse (text : Octets) : Except Fault Expression :=
  match tokens (text.length + 1) text with
  | none => .error .expectingEnd
  | some [] => .ok (.number 0)
  | some ts => do
    let (e, left) ← expression (8 * ts.length + 16) ts
    if left.isEmpty then .ok e else .error .expectingEnd

/-! ## Values -/

/-- The truth of a comparison as a number. -/
def truth (b : Bool) : Int := if b then 1 else 0

/-- The bits of a number. -/
def bits (n : Int) : Nat := (n % 18446744073709551616).toNat

/-- The value of an operation. -/
def Operation.apply (o : Operation) (a b : Int) : Except Fault Int :=
  match o with
  | .or => .ok (wrap (bits a ||| bits b))
  | .xor => .ok (wrap (bits a ^^^ bits b))
  | .and => .ok (wrap (bits a &&& bits b))
  | .equal => .ok (truth (a == b))
  | .notEqual => .ok (truth (a != b))
  | .less => .ok (truth (a < b))
  | .lessEqual => .ok (truth (a ≤ b))
  | .greater => .ok (truth (a > b))
  | .greaterEqual => .ok (truth (a ≥ b))
  | .shiftLeft => .ok (wrap (a * Int.ofNat (Nat.pow 2 (bits b % 64))))
  | .shiftRight => .ok (wrap (a / Int.ofNat (Nat.pow 2 (bits b % 64))))
  | .add => .ok (wrap (a + b))
  | .subtract => .ok (wrap (a - b))
  | .multiply => .ok (wrap (a * b))
  | .divide => if b == 0 then .error .divisionByZero else .ok (wrap (Int.tdiv a b))
  | .remainder => if b == 0 then .error .divisionByZero else .ok (wrap (Int.tmod a b))

/-- How an expression sees the variables: the number that one holds, and assigning one. -/
structure Variables (σ : Type) where
  get : σ → Octets → Except Fault Int
  set : σ → Octets → Int → σ

/-- **Evaluates** an expression. -/
def Expression.eval {σ : Type} (vars : Variables σ) : Expression → σ → Except Fault (Int × σ)
  | .number n, s => .ok (n, s)
  | .variable x, s => do return (← vars.get s x, s)
  | .not e, s => do
    let (n, s) ← e.eval vars s
    return (truth (n == 0), s)
  | .complement e, s => do
    let (n, s) ← e.eval vars s
    return (wrap (-n - 1), s)
  | .negate e, s => do
    let (n, s) ← e.eval vars s
    return (wrap (-n), s)
  | .operation o a b, s => do
    let (m, s) ← a.eval vars s
    let (n, s) ← b.eval vars s
    return (← o.apply m n, s)
  | .both a b, s => do
    let (m, s) ← a.eval vars s
    if m == 0 then return (0, s)
    let (n, s) ← b.eval vars s
    return (truth (n != 0), s)
  | .either a b, s => do
    let (m, s) ← a.eval vars s
    if m != 0 then return (1, s)
    let (n, s) ← b.eval vars s
    return (truth (n != 0), s)
  | .choice test a b, s => do
    let (m, s) ← test.eval vars s
    if m != 0 then a.eval vars s else b.eval vars s
  | .assign x o e, s => do
    let (n, s) ← e.eval vars s
    let value ← (match o with
      | some o => do o.apply (← vars.get s x) n
      | none => .ok n)
    return (value, vars.set s x value)

/-- The number that the value of a variable denotes; the value has to be nothing but a number. -/
def numberOf (cs : Octets) : Except Fault Int :=
  let trimmed := cs.dropWhile fun c => c == ' ' || c == '\t' || c == '\n'
  let (negative, digits) :=
    match trimmed with
    | '-' :: rest => (true, rest)
    | '+' :: rest => (false, rest)
    | _ => (false, trimmed)
  let (n, left) := numberFront digits
  if left.all (fun c => c == ' ' || c == '\t' || c == '\n') &&
      (trimmed.isEmpty || (digits.head?.any Char.isDigit)) then
    .ok (if negative then -n else n)
  else .error (.illegalNumber cs)

end StepFlow.Shell.Arithmetic
