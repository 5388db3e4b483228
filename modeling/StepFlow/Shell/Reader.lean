import StepFlow.Shell.Syntax

/-! # Reading shell scripts

`Script.read` takes a script apart into commands. A script is read line by line, where a line goes
on until its commands are complete; what is wrong in a line does not keep the lines before it from
being run.

All readers go down on a number that is larger than any nesting of the text can be. -/

namespace StepFlow.Shell

open Text

/-- A **token**: what separates the commands and words of a script. -/
inductive Token where
  | word (w : Word)
  /-- A number right in front of a redirection. -/
  | number (n : Nat)
  | operator (symbol : String)
  | newline
  | ending

/-- What is left of a script. -/
structure Front where
  text : Octets
  line : Nat := 1
  /-- How many lines of documents stood between the current line and the next one. -/
  taken : Nat := 0
  /-- A token that was read and not used. -/
  pushed : Option Token := none

/-- A **reader** of part of a script. -/
abbrev Reader (α : Type) : Type := StateT Front (Except (Nat × String)) α

namespace Reader

/-- Fails with a message. -/
def fail {α : Type} (message : String) : Reader α := do throw ((← get).line, message)

/-- The text that is left. -/
def text : Reader Octets := return (← get).text

/-- Goes on with another text, which is what is left after some lines. -/
def goOn (text : Octets) (newlines : Nat) : Reader Unit :=
  modify fun s => { s with text := text, line := s.line + newlines }

/-- Puts a token back. -/
def push (t : Token) : Reader Unit := modify fun s => { s with pushed := some t }

end Reader

open Reader

/-! ## Characters and names -/

/-- Whether a character ends an unquoted word. -/
def isMeta (c : Char) : Bool :=
  c == ' ' || c == '\t' || c == '\n' || c == ';' || c == '&' || c == '|' || c == '<' || c == '>' ||
    c == '(' || c == ')'

/-- Whether a character can begin a name. -/
def isNameStart (c : Char) : Bool := c.isAlpha || c == '_'

/-- Whether a character can stand in a name. -/
def isNameChar (c : Char) : Bool := c.isAlphanum || c == '_'

/-- Whether some octets are a name. -/
def isName : Octets → Bool
  | [] => false
  | c :: rest => isNameStart c && rest.all isNameChar

/-- Whether a character is the name of a special parameter. -/
def isSpecial (c : Char) : Bool :=
  c == '@' || c == '*' || c == '#' || c == '?' || c == '-' || c == '$' || c == '!'

/-- The words that mean something of their own where a command begins. -/
def reservedWords : List String :=
  ["if", "then", "else", "elif", "fi", "do", "done", "case", "esac", "while", "until", "for",
    "\x7b", "\x7d", "!", "in"]

/-- The reserved word that a word is, if it is one. -/
def reserved? : Word → Option String
  | [.text cs false] => reservedWords.find? (·.toList == cs)
  | _ => none

/-- The reserved words and operators at which a list of commands ends. -/
def endings : List String := ["then", "else", "elif", "fi", "do", "done", "esac", "\x7d", ")", ";;"]

/-- How a token is called in a message. -/
def Token.name : Token → String
  | .word w =>
    match reserved? w with
    | some r => "\"" ++ r ++ "\""
    | none => "word"
  | .number _ => "word"
  | .operator s => "\"" ++ s ++ "\""
  | .newline => "newline"
  | .ending => "end of file"

/-- Fails because of a token, where another one may have been expected. -/
def unexpected {α : Type} (t : Token) (expected : Option String := none) : Reader α :=
  let more :=
    match expected with
    | some e => " (expecting \"" ++ e ++ "\")"
    | none => ""
  fail ("Syntax error: " ++ t.name ++ " unexpected" ++ more)

/-- The operator that a text begins with. -/
def operator? (text : Octets) : Option String :=
  ["&&", "||", ";;", "<<-", "<<", "<&", "<>", ">>", ">&", ">|", "&", ";", "|", "(", ")", "<",
    ">"].find? fun s => s.toList.isPrefixOf text

/-! ## Quoting -/

/-- How the parts of a word are read. -/
inductive Mode where
  /-- Outside of quotes, up to the end of the word. -/
  | bare
  /-- Between double quotes. -/
  | double
  /-- Between braces, inside double quotes or not. -/
  | brace (quoted : Bool)
  /-- Between double parentheses; how many single ones are open. -/
  | arithmetic (depth : Nat)
  /-- In a document. -/
  | document
deriving Repr, DecidableEq

/-- Whether what is read counts as quoted. -/
def Mode.isQuoted : Mode → Bool
  | .bare | .brace false => false
  | .double | .brace true | .arithmetic _ | .document => true

/-- Whether a backslash takes away the meaning of a character. -/
def Mode.escapes (m : Mode) (c : Char) : Bool :=
  match m with
  | .bare | .brace false => true
  | .double => c == '$' || c == '`' || c == '"' || c == '\\'
  | .brace true => c == '$' || c == '`' || c == '"' || c == '\\' || c == '\x7d'
  | .arithmetic _ | .document => c == '$' || c == '`' || c == '\\'

/-- Whether quotes begin quoting. -/
def Mode.quotes (m : Mode) (quote : Char) : Bool :=
  match m with
  | .bare | .brace false => true
  | .brace true => quote == '"'
  | .double | .arithmetic _ | .document => false

/-- Whether a character stands for itself wherever it is. -/
def isPlain (c : Char) : Bool :=
  !isMeta c && c != '\\' && c != '\'' && c != '"' && c != '$' && c != '`' && c != '\x7d'

/-- The text up to an unescaped backquote, and what comes after it. -/
def backquoted (quoted : Bool) : Octets → Option (Octets × Octets)
  | [] => none
  | '`' :: rest => some ([], rest)
  | '\\' :: c :: rest =>
    (backquoted quoted rest).map fun r =>
      if c == '`' || c == '\\' || c == '$' || (quoted && c == '"') then (c :: r.1, r.2)
      else ('\\' :: c :: r.1, r.2)
  | c :: rest => (backquoted quoted rest).map fun r => (c :: r.1, r.2)

/-! ## Documents -/

/-- The text of a word without quotes, and whether something in it was quoted. -/
def delimiter (w : Word) : Octets × Bool :=
  (w.flatMap fun
    | .text cs _ => cs
    | _ => [], w.any fun
    | .text _ q => q
    | _ => false)

/-- Takes lines up to one that is the delimiter: those lines, and what comes after it. -/
def documentLines (stripTabs : Bool) (stop : Octets) : List Octets → List Octets × List Octets
  | [] => ([], [])
  | l :: rest =>
    let l := if stripTabs then l.dropWhile (· == '\t') else l
    if l == stop then ([], rest)
    else
      let (body, left) := documentLines stripTabs stop rest
      (l :: body, left)

/-- Lines as one text, each with its end. -/
def unlines (lines : List Octets) : Octets := lines.flatMap (· ++ ['\n'])

/-- Takes the body of a document out of the text after the current line. -/
def takeDocument (stripTabs : Bool) (stop : Octets) (text : Octets) : Octets × Octets :=
  let current := text.takeWhile (· != '\n')
  match text.dropWhile (· != '\n') with
  | [] => ([], text)
  | _ :: after =>
    let (body, left) := documentLines stripTabs stop (Octets.lines after)
    (unlines body, current ++ '\n' :: unlines left)

/-! ## The readers -/

/-- Skips blanks, comments and line ends that a backslash takes away. -/
def skipBlanks : Octets → Octets × Nat
  | ' ' :: rest | '\t' :: rest => skipBlanks rest
  | '\\' :: '\n' :: rest =>
    let (left, lines) := skipBlanks rest
    (left, lines + 1)
  | '#' :: rest => (rest.dropWhile (· != '\n'), 0)
  | text => (text, 0)

/-- The word that an assignment gives to a name, if the word has the form of one. -/
def assignment? : Word → Option (Octets × Word)
  | .text cs false :: rest =>
    let name := cs.takeWhile (· != '=')
    match cs.dropWhile (· != '=') with
    | _ :: value =>
      if isName name then
        some (name, if value.isEmpty then rest else .text value false :: rest)
      else none
    | [] => none
  | _ => none

mutual

/-- Reads the parts of a word up to where the mode ends; those read before come last first. -/
def parts : Nat → Mode → List Part → Reader (List Part)
  | 0, _, _ => fail "Syntax error: too deep"
  | fuel + 1, mode, acc => do
    let quoted := mode.isQuoted
    match ← text with
    | [] =>
      match mode with
      | .bare | .document => return acc.reverse
      | .double => fail "Syntax error: Unterminated quoted string"
      | .brace _ => fail "Syntax error: Missing '\x7d'"
      | .arithmetic _ => fail "Syntax error: Missing '))'"
    | '\\' :: '\n' :: rest => do
      goOn rest 1
      parts fuel mode acc
    | '\\' :: c :: rest =>
      if mode.escapes c then do
        goOn rest 0
        parts fuel mode (.text [c] true :: acc)
      else do
        goOn (c :: rest) 0
        parts fuel mode (.text ['\\'] quoted :: acc)
    | '\'' :: rest =>
      if mode.quotes '\'' then
        let inner := rest.takeWhile (· != '\'')
        match rest.drop inner.length with
        | [] => fail "Syntax error: Unterminated quoted string"
        | _ :: after => do
          goOn after (inner.count '\n')
          parts fuel mode (.text inner true :: acc)
      else do
        goOn rest 0
        parts fuel mode (.text ['\''] quoted :: acc)
    | '"' :: rest =>
      if mode == .double then return acc.reverse
      else if mode.quotes '"' then do
        goOn rest 0
        let inner ← parts fuel .double []
        goOn ((← text).drop 1) 0
        parts fuel mode (inner.reverse ++ .text [] true :: acc)
      else do
        goOn rest 0
        parts fuel mode (.text ['"'] quoted :: acc)
    | '$' :: rest => do
      goOn rest 0
      let part ← dollar fuel quoted
      parts fuel mode (part :: acc)
    | '`' :: rest =>
      match backquoted quoted rest with
      | none => fail "Syntax error: EOF in backquote substitution"
      | some (inner, after) => do
        let outer ← get
        set { outer with text := inner, pushed := none }
        let body ← commands fuel false []
        match ← token fuel with
        | .ending => do
          set { outer with text := after }
          parts fuel mode (.command body quoted :: acc)
        | t => unexpected t
    | c :: rest =>
      match mode with
      | .bare =>
        if isMeta c then return acc.reverse
        else
          let run := c :: rest.takeWhile isPlain
          goOn (rest.drop (run.length - 1)) 0
          parts fuel mode (.text run false :: acc)
      | .brace _ =>
        if c == '\x7d' then return acc.reverse
        else
          let run := c :: rest.takeWhile isPlain
          goOn (rest.drop (run.length - 1)) (run.count '\n')
          parts fuel mode (.text run quoted :: acc)
      | .arithmetic depth => do
        goOn rest (if c == '\n' then 1 else 0)
        if c == ')' then
          match depth, rest with
          | 0, ')' :: _ => return acc.reverse
          | 0, _ => fail "Syntax error: Missing '))'"
          | depth + 1, _ => parts fuel (.arithmetic depth) (.text [c] quoted :: acc)
        else do
          let inner := if c == '(' then depth + 1 else depth
          parts fuel (.arithmetic inner) (.text [c] quoted :: acc)
      | .double | .document => do
        let run := c :: rest.takeWhile fun c => isPlain c || isMeta c
        goOn (rest.drop (run.length - 1)) (run.count '\n')
        parts fuel mode (.text run quoted :: acc)

/-- Reads what comes after a dollar sign. -/
def dollar : Nat → Bool → Reader Part
  | 0, _ => fail "Syntax error: too deep"
  | fuel + 1, quoted => do
    match ← text with
    | '(' :: '(' :: rest => do
      goOn rest 0
      let body ← parts fuel (.arithmetic 0) []
      goOn ((← text).drop 1) 0
      return .arithmetic body quoted
    | '(' :: rest => do
      let saved := (← get).pushed
      goOn rest 0
      modify ({ · with pushed := none })
      let body ← commands fuel false []
      match ← token fuel with
      | .operator ")" => do
        modify ({ · with pushed := saved })
        return .command body quoted
      | t => unexpected t (some ")")
    | '\x7b' :: rest => do
      goOn rest 0
      let p ← braced fuel quoted
      goOn ((← text).drop 1) 0
      return .parameter p quoted
    | c :: rest =>
      if isNameStart c then do
        let name := c :: rest.takeWhile isNameChar
        goOn (rest.drop (name.length - 1)) 0
        return .parameter (.value name) quoted
      else if c.isDigit || isSpecial c then do
        goOn rest 0
        return .parameter (.value [c]) quoted
      else return .text ['$'] quoted
    | [] => return .text ['$'] quoted

/-- Reads what stands between the braces of a parameter, up to the closing one. -/
def braced : Nat → Bool → Reader Parameter
  | 0, _ => fail "Syntax error: too deep"
  | fuel + 1, quoted => do
    let nameOf (cs : Octets) : Octets :=
      match cs with
      | c :: rest =>
        if isNameStart c then c :: rest.takeWhile isNameChar
        else if c.isDigit then c :: rest.takeWhile Char.isDigit
        else if isSpecial c then [c]
        else []
      | [] => []
    let cs ← text
    let counted := nameOf (cs.drop 1)
    let closes := (cs.drop (1 + counted.length)).head? == some '\x7d'
    if cs.head? == some '#' && !counted.isEmpty && closes then do
      goOn (cs.drop (1 + counted.length)) 0
      return .length counted
    let name := nameOf cs
    let after := cs.drop name.length
    let choice (kind : Choice) (emptyIsNone : Bool) (rest : Octets) : Reader Parameter := do
      goOn rest 0
      return .choice name kind emptyIsNone (← parts fuel (.brace quoted) [])
    let strip (atEnd longest : Bool) (rest : Octets) : Reader Parameter := do
      goOn rest 0
      return .strip name atEnd longest (← parts fuel (.brace false) [])
    if name.isEmpty then
      discard (parts fuel (.brace quoted) [])
      return .bad
    match after with
    | '\x7d' :: _ => do
      goOn after 0
      return .value name
    | ':' :: '\x7d' :: rest => do
      goOn rest 0
      discard (parts fuel (.brace quoted) [])
      return .bad
    | ':' :: '-' :: rest => choice .default true rest
    | ':' :: '=' :: rest => choice .assign true rest
    | ':' :: '+' :: rest => choice .alternative true rest
    | ':' :: '?' :: rest => choice .complain true rest
    | '-' :: rest => choice .default false rest
    | '=' :: rest => choice .assign false rest
    | '+' :: rest => choice .alternative false rest
    | '?' :: rest => choice .complain false rest
    | '%' :: '%' :: rest => strip true true rest
    | '%' :: rest => strip true false rest
    | '#' :: '#' :: rest => strip false true rest
    | '#' :: rest => strip false false rest
    | _ => do
      goOn after 0
      discard (parts fuel (.brace quoted) [])
      return .bad

/-- Reads the next token. -/
def token : Nat → Reader Token
  | 0 => fail "Syntax error: too deep"
  | fuel + 1 => do
    match (← get).pushed with
    | some t => do
      modify ({ · with pushed := none })
      return t
    | none => do
      let (cs, lines) := skipBlanks (← text)
      goOn cs lines
      match cs with
      | [] => return .ending
      | '\n' :: rest => do
        goOn rest (1 + (← get).taken)
        modify ({ · with taken := 0 })
        return .newline
      | _ =>
        match operator? cs with
        | some s => do
          goOn (cs.drop s.length) 0
          return .operator s
        | none =>
          let digits := cs.takeWhile Char.isDigit
          let next := (cs.drop digits.length).head?
          if !digits.isEmpty && (next == some '<' || next == some '>') then do
            goOn (cs.drop digits.length) 0
            return .number (digits.foldl (fun n c => 10 * n + (c.toNat - '0'.toNat)) 0)
          else return .word (← parts fuel .bare [])

/-- Reads the word after a token that needs one. -/
def wordAfter : Nat → Reader Word
  | 0 => fail "Syntax error: too deep"
  | fuel + 1 => do
    match ← token fuel with
    | .word w => return w
    | t => unexpected t

/-- Reads the rest of a redirection after its operator. -/
def redirection : Nat → Option Nat → String → Reader Redirection
  | 0, _, _ => fail "Syntax error: too deep"
  | fuel + 1, fd, symbol => do
    let target ← wordAfter fuel
    let document (stripTabs : Bool) : Reader Redirection := do
      let (stop, verbatim) := delimiter target
      let (body, left) := takeDocument stripTabs stop (← text)
      let lines := body.count '\n' + 1
      goOn left 0
      modify fun s => { s with taken := s.taken + lines }
      if verbatim then return .document (fd.getD 0) [.text body true]
      else do
        let outer ← get
        set { outer with
          text := body, line := outer.line + 1 + outer.taken - lines, taken := 0, pushed := none }
        let read ← parts fuel .document []
        set outer
        return .document (fd.getD 0) read
    match symbol with
    | "<" => return .input (fd.getD 0) target
    | ">" | ">|" => return .output (fd.getD 1) false target
    | ">>" => return .output (fd.getD 1) true target
    | "<>" => return .both (fd.getD 0) target
    | "<&" => return .duplicate (fd.getD 0) target
    | ">&" => return .duplicate (fd.getD 1) target
    | "<<" => document false
    | _ => document true

/-- Reads the redirections that come next; those read before come last first. -/
def redirections : Nat → List Redirection → Reader (List Redirection)
  | 0, _ => fail "Syntax error: too deep"
  | fuel + 1, acc => do
    match ← token fuel with
    | .number n =>
      match ← token fuel with
      | .operator s => do redirections fuel ((← redirection fuel (some n) s) :: acc)
      | t => unexpected t
    | .operator s =>
      if s.startsWith "<" || s.startsWith ">" then do
        redirections fuel ((← redirection fuel none s) :: acc)
      else do
        push (.operator s)
        return acc.reverse
    | t => do
      push t
      return acc.reverse

/-- Reads a simple command; what was read before comes last first. -/
def simple : Nat → Nat → List (Octets × Word) → List Word → List Redirection → Reader Command
  | 0, _, _, _, _ => fail "Syntax error: too deep"
  | fuel + 1, line, assigned, words, redirected => do
    let finish (t : Token) : Reader Command := do
      if assigned.isEmpty && words.isEmpty && redirected.isEmpty then unexpected t
      else do
        push t
        return .simple line assigned.reverse words.reverse redirected.reverse
    match ← token fuel with
    | .word w =>
      match assignment? w with
      | some a =>
        if words.isEmpty then simple fuel line (a :: assigned) words redirected
        else simple fuel line assigned (w :: words) redirected
      | none => simple fuel line assigned (w :: words) redirected
    | .number n =>
      match ← token fuel with
      | .operator s => do
        let r ← redirection fuel (some n) s
        simple fuel line assigned words (r :: redirected)
      | t => unexpected t
    | .operator "(" =>
      match assigned, words, redirected with
      | [], [[.text name false]], [] =>
        match ← token fuel with
        | .operator ")" => do
          skipNewlines fuel
          if isName name then return .define name (← command fuel)
          else fail "Syntax error: Bad function name"
        | t => unexpected t (some ")")
      | _, _, _ => finish (.operator "(")
    | .operator s =>
      if s.startsWith "<" || s.startsWith ">" then do
        let r ← redirection fuel none s
        simple fuel line assigned words (r :: redirected)
      else finish (.operator s)
    | t => finish t

/-- Skips line ends. -/
def skipNewlines : Nat → Reader Unit
  | 0 => fail "Syntax error: too deep"
  | fuel + 1 => do
    match ← token fuel with
    | .newline => skipNewlines fuel
    | t => push t

/-- Reads a reserved word that must come next, perhaps after line ends. -/
def expectWord : Nat → String → Reader Unit
  | 0, _ => fail "Syntax error: too deep"
  | fuel + 1, expected => do
    skipNewlines fuel
    match ← token fuel with
    | .word w => if reserved? w == some expected then return () else unexpected (.word w) expected
    | t => unexpected t expected

/-- Reads a command. -/
def command : Nat → Reader Command
  | 0 => fail "Syntax error: too deep"
  | fuel + 1 => do
    let withRedirections (c : Command) : Reader Command := do
      match ← redirections fuel [] with
      | [] => return c
      | rs => return .redirected c rs
    let t ← token fuel
    match t with
    | .operator "(" => do
      let body ← commands fuel false []
      match ← token fuel with
      | .operator ")" => withRedirections (.subshell body)
      | t => unexpected t (some ")")
    | .word w =>
      match reserved? w with
      | none => do
        push t
        simple fuel (← get).line [] [] []
      | some "if" => do
        let c ← conditionalRest fuel
        withRedirections c
      | some "while" => do
        let test ← commands fuel false []
        expectWord fuel "do"
        let body ← commands fuel false []
        expectWord fuel "done"
        withRedirections (.loop false test body)
      | some "until" => do
        let test ← commands fuel false []
        expectWord fuel "do"
        let body ← commands fuel false []
        expectWord fuel "done"
        withRedirections (.loop true test body)
      | some "for" => do
        let name ← (do
          match ← token fuel with
          | .word [.text name false] =>
            if isName name then return name else fail "Syntax error: Bad for loop variable"
          | _ => fail "Syntax error: Bad for loop variable")
        skipNewlines fuel
        let words ← (do
          match ← token fuel with
          | .word w =>
            if reserved? w == some "in" then return some (← wordList fuel [])
            else do
              push (.word w)
              return none
          | .operator ";" => return none
          | t => do
            push t
            return none)
        expectWord fuel "do"
        let body ← commands fuel false []
        expectWord fuel "done"
        withRedirections (.each name words body)
      | some "case" => do
        let word ← wordAfter fuel
        expectWord fuel "in"
        let clauses ← caseClauses fuel []
        withRedirections (.cases word clauses)
      | some "\x7b" => do
        let body ← commands fuel false []
        expectWord fuel "\x7d"
        withRedirections (.group body)
      | some "in" => do
        push t
        simple fuel (← get).line [] [] []
      | some _ => unexpected t
    | t => do
      push t
      simple fuel (← get).line [] [] []

/-- Reads a conditional after its first word. -/
def conditionalRest : Nat → Reader Command
  | 0 => fail "Syntax error: too deep"
  | fuel + 1 => do
    let test ← commands fuel false []
    expectWord fuel "then"
    let body ← commands fuel false []
    match ← token fuel with
    | .word w =>
      match reserved? w with
      | some "elif" => return .conditional test body [← conditionalRest fuel]
      | some "else" => do
        let other ← commands fuel false []
        expectWord fuel "fi"
        return .conditional test body other
      | some "fi" => return .conditional test body []
      | _ => unexpected (.word w) (some "fi")
    | t => unexpected t (some "fi")

/-- Reads the words of a `for` up to the end of its line; those read before come last first. -/
def wordList : Nat → List Word → Reader (List Word)
  | 0, _ => fail "Syntax error: too deep"
  | fuel + 1, acc => do
    match ← token fuel with
    | .word w => wordList fuel (w :: acc)
    | .newline | .operator ";" => return acc.reverse
    | t => unexpected t

/-- Reads the clauses of a `case`; those read before come last first. -/
def caseClauses : Nat → List (List Word × List Command) →
    Reader (List (List Word × List Command))
  | 0, _ => fail "Syntax error: too deep"
  | fuel + 1, acc => do
    skipNewlines fuel
    let first ← (do
      match ← token fuel with
      | .operator "(" => token fuel
      | t => return t)
    match first with
    | .word w =>
      if reserved? w == some "esac" then return acc.reverse
      else do
        let patterns ← patternList fuel [w]
        let body ← commands fuel true []
        skipNewlines fuel
        match ← token fuel with
        | .operator ";;" => caseClauses fuel ((patterns, body) :: acc)
        | .word w =>
          if reserved? w == some "esac" then return ((patterns, body) :: acc).reverse
          else unexpected (.word w) (some ";;")
        | t => unexpected t (some ";;")
    | _ => unexpected (← token fuel) (some ")")

/-- Reads the patterns of a clause after the first one; those read before come last first. -/
def patternList : Nat → List Word → Reader (List Word)
  | 0, _ => fail "Syntax error: too deep"
  | fuel + 1, acc => do
    match ← token fuel with
    | .operator "|" => do patternList fuel ((← wordAfter fuel) :: acc)
    | .operator ")" => return acc.reverse
    | t => unexpected t (some ")")

/-- Reads commands that are connected by pipes; those read before come last first. -/
def stages : Nat → List Command → Reader (List Command)
  | 0, _ => fail "Syntax error: too deep"
  | fuel + 1, acc => do
    match ← token fuel with
    | .operator "|" => do
      skipNewlines fuel
      stages fuel ((← command fuel) :: acc)
    | t => do
      push t
      return acc.reverse

/-- Reads a pipeline. -/
def pipeline : Nat → Reader Command
  | 0 => fail "Syntax error: too deep"
  | fuel + 1 => do
    let t ← token fuel
    let negated :=
      match t with
      | .word w => reserved? w == some "!"
      | _ => false
    if !negated then push t
    return .ofStages negated (← stages fuel [← command fuel])

/-- Reads pipelines that hang on each other's end, after the first one. -/
def andOr : Nat → Command → Reader Command
  | 0, _ => fail "Syntax error: too deep"
  | fuel + 1, first => do
    match ← token fuel with
    | .operator "&&" => do
      skipNewlines fuel
      andOr fuel (.both first (← pipeline fuel))
    | .operator "||" => do
      skipNewlines fuel
      andOr fuel (.either first (← pipeline fuel))
    | t => do
      push t
      return first

/-- Reads a list of commands up to a word or an operator that ends it; those read before come last
first. The list may be empty where that is said. -/
def commands : Nat → Bool → List Command → Reader (List Command)
  | 0, _, _ => fail "Syntax error: too deep"
  | fuel + 1, mayEnd, acc => do
    skipNewlines fuel
    let t ← token fuel
    push t
    let ends :=
      match t with
      | .word w => (reserved? w).any (· ∈ endings)
      | .operator s => s ∈ endings
      | .ending => true
      | _ => false
    let isEnd :=
      match t with
      | .ending => true
      | _ => false
    if isEnd || (ends && (mayEnd || !acc.isEmpty)) then return acc.reverse
    else do
      let c ← andOr fuel (← pipeline fuel)
      match ← token fuel with
      | .operator "&" => commands fuel true (.background c :: acc)
      | .operator ";" | .newline => commands fuel true (c :: acc)
      | t => do
        push t
        return (c :: acc).reverse

/-- Reads one line of commands; those read before come last first. -/
def commandLine : Nat → List Command → Reader (List Command)
  | 0, _ => fail "Syntax error: too deep"
  | fuel + 1, acc => do
    match ← token fuel with
    | .newline => return acc.reverse
    | .ending => do
      push .ending
      return acc.reverse
    | t => do
      push t
      let c ← andOr fuel (← pipeline fuel)
      match ← token fuel with
      | .operator "&" => commandLine fuel (.background c :: acc)
      | .operator ";" => commandLine fuel (c :: acc)
      | .newline => return (c :: acc).reverse
      | .ending => do
        push .ending
        return (c :: acc).reverse
      | t => unexpected t

end

/-! ## Scripts -/

/-- Reads lines until the text ends or something is wrong; those read before come last first. -/
def readLines (depth : Nat) : Nat → Front → List (List Command) → Script
  | 0, _, acc => { lines := acc.reverse }
  | count + 1, front, acc =>
    match commandLine depth [] front with
    | .error fault => { lines := acc.reverse, fault := some fault }
    | .ok (commands, front) =>
      match front.pushed with
      | some .ending => { lines := (commands :: acc).reverse }
      | _ => readLines depth count front (commands :: acc)

/-- **Reads a script.** -/
def Script.read (text : Octets) : Script :=
  readLines (16 * text.length + 64) (text.length + 2) { text := text } []

end StepFlow.Shell
