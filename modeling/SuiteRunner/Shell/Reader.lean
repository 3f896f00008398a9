import SuiteRunner.Shell.Reader.Basic

/-!
# Reading scripts

A script is read one line of commands at a time, and a line goes on as long as its commands do. So
what stands after a fault is never read, and what stands before it is run first.

* `Reader.line`: the commands of the next line;
* `Shell.readScript`: the commands of all lines before the first fault.
-/

namespace SuiteRunner.Shell

namespace Reader

mutual

/-- The parts of a word up to a character that `stop` holds for; in double quotes if `quoted` says
so. -/
def parts : Nat → (stop : Char → Bool) → (quoted : Bool) → Reader Word
  | 0, _, _ => failure
  | fuel + 1, stop, quoted => do
    match ← ahead with
    | [] => return []
    | '\\' :: c :: _ =>
      if c = '\n' then
        advance 2
        parts fuel stop quoted
      else if quoted && !(['$', '\x60', '"', '\\'].contains c) then
        advance 1
        return .char '\\' true :: (← parts fuel stop quoted)
      else
        advance 2
        return .char c true :: (← parts fuel stop quoted)
    | c :: cs =>
      if stop c then return []
      else if c = '"' && !quoted then
        advance 1
        let inner ← parts fuel (· == '"') true
        expect '"'
        return (if inner.isEmpty then [.nothing] else inner) ++ (← parts fuel stop quoted)
      else if c = '\'' && !quoted then
        let inner := cs.takeWhile (· != '\'')
        advance (inner.length + 1)
        expect '\''
        return (if inner.isEmpty then [.nothing] else inner.map (.char · true)) ++
          (← parts fuel stop quoted)
      else if c = '$' then
        advance 1
        let p ← parameter fuel quoted
        return p :: (← parts fuel stop quoted)
      else if c = '\x60' then
        match untilBackQuote cs with
        | none => failure
        | some (body, rest) =>
          let k ← get
          match (list fuel).run ⟨body, k.line⟩ with
          | some (script, ⟨[], _⟩) =>
            advance (cs.length - rest.length + 1)
            return .output script quoted :: (← parts fuel stop quoted)
          | _ => failure
      else
        advance 1
        return .char c quoted :: (← parts fuel stop quoted)

/-- The part of a word behind a dollar sign. -/
def parameter : Nat → (quoted : Bool) → Reader Part
  | 0, _ => failure
  | fuel + 1, quoted => do
    match ← ahead with
    | '(' :: _ =>
      advance 1
      let body ← list fuel
      expect ')'
      return .output body quoted
    | '{' :: _ =>
      advance 1
      let name ← nonempty (parameterName true (← ahead))
      advance name.length
      match change? (← ahead) with
      | none =>
        expect '}'
        return .value name quoted
      | some (change, n) =>
        advance n
        let inQuotes := match change with
          | .cut .. => false
          | _ => quoted
        let word ← parts fuel (· == '}') inQuotes
        expect '}'
        return .changed name change word quoted
    | cs =>
      match parameterName false cs with
      | [] => return .char '$' quoted
      | name =>
        advance name.length
        return .value name quoted

/-- The words and redirections that come now. -/
def items : Nat → Reader (List Item)
  | 0 => failure
  | fuel + 1 => do
    skipBlanks
    let cs ← ahead
    match arrow? cs with
    | some (stream, opening?, n) =>
      advance n
      skipBlanks
      let target ← nonempty (← parts fuel endsWord false)
      match opening?, target with
      | some opening, _ => return .inr (.file stream opening target) :: (← items fuel)
      | none, [.char d false] =>
        if d.isDigit then return .inr (.copy stream (d.toNat - 48)) :: (← items fuel)
        else failure
      | none, _ => failure
    | none =>
      match cs with
      | [] => return []
      | c :: _ =>
        if endsWord c then return []
        else
          let w ← parts fuel endsWord false
          return .inl w :: (← items fuel)

/-- The commands up to where a list ends. -/
def list : Nat → Reader Script
  | 0 => failure
  | fuel + 1 => do
    skipLines
    if ← atEnd then return []
    else
      let c ← andOr fuel
      match ← ahead with
      | ';' :: ';' :: _ => return [c]
      | ';' :: _ =>
        advance 1
        return c :: (← list fuel)
      | '&' :: _ =>
        advance 1
        return .background c :: (← list fuel)
      | '\n' :: _ => return c :: (← list fuel)
      | _ => return [c]

/-- Pipelines, joined by what the success of each means for the next. -/
def andOr : Nat → Reader Command
  | 0 => failure
  | fuel + 1 => do andOrAfter fuel (← pipeline fuel)

/-- The pipelines behind the first. -/
def andOrAfter : Nat → Command → Reader Command
  | 0, _ => failure
  | fuel + 1, first => do
    skipBlanks
    match ← ahead with
    | '&' :: '&' :: _ =>
      advance 2
      skipLines
      andOrAfter fuel (.both first (← pipeline fuel))
    | '|' :: '|' :: _ =>
      advance 2
      skipLines
      andOrAfter fuel (.either first (← pipeline fuel))
    | _ => return first

/-- Commands joined by their streams. -/
def pipeline : Nat → Reader Command
  | 0 => failure
  | fuel + 1 => do
    skipBlanks
    if ← isNext "!" then
      advance 1
      return .negation (← pipeline fuel)
    else
      let c ← command fuel
      match ← piped fuel with
      | [] => return c
      | cs => return .pipeline (c :: cs)

/-- The commands behind the first of a pipeline. -/
def piped : Nat → Reader (List Command)
  | 0 => failure
  | fuel + 1 => do
    skipBlanks
    match ← ahead with
    | '|' :: '|' :: _ => return []
    | '|' :: _ =>
      advance 1
      skipLines
      let c ← command fuel
      return c :: (← piped fuel)
    | _ => return []

/-- The arms of a branch behind its first word, and the commands for when none applies. -/
def arms : Nat → Reader (List (Script × Script) × Script)
  | 0 => failure
  | fuel + 1 => do
    let condition ← nonempty (← list fuel)
    expectWord "then"
    let body ← nonempty (← list fuel)
    if ← isNext "elif" then
      advance 4
      let (more, otherwise) ← arms fuel
      return ((condition, body) :: more, otherwise)
    else if ← isNext "else" then
      advance 4
      let otherwise ← nonempty (← list fuel)
      expectWord "fi"
      return ([(condition, body)], otherwise)
    else
      expectWord "fi"
      return ([(condition, body)], [])

/-- The patterns of an arm, up to the closing parenthesis. -/
def patterns : Nat → Reader (List Word)
  | 0 => failure
  | fuel + 1 => do
    skipBlanks
    let w ← nonempty (← parts fuel endsWord false)
    skipBlanks
    match ← ahead with
    | '|' :: _ =>
      advance 1
      return w :: (← patterns fuel)
    | _ =>
      expect ')'
      return [w]

/-- The arms of a choice, up to its last word. -/
def choices : Nat → Reader (List (List Word × Script))
  | 0 => failure
  | fuel + 1 => do
    skipLines
    if ← isNext "esac" then
      advance 4
      return []
    else
      if (← ahead).head? = some '(' then advance 1
      let ps ← patterns fuel
      let body ← list fuel
      match ← ahead with
      | ';' :: ';' :: _ =>
        advance 2
        return (ps, body) :: (← choices fuel)
      | _ =>
        expectWord "esac"
        return [(ps, body)]

/-- The body of a loop. -/
def body : Nat → Reader Script
  | 0 => failure
  | fuel + 1 => do
    expectWord "do"
    let b ← nonempty (← list fuel)
    expectWord "done"
    return b

/-- One command. -/
def command : Nat → Reader Command
  | 0 => failure
  | fuel + 1 => do
    skipBlanks
    let k ← get
    if ← isNext "if" then
      advance 2
      let (as, otherwise) ← arms fuel
      redirect (.branch as otherwise) (← items fuel)
    else if ← isNext "while" then
      advance 5
      let condition ← nonempty (← list fuel)
      redirect (.loop false condition (← body fuel)) (← items fuel)
    else if ← isNext "until" then
      advance 5
      let condition ← nonempty (← list fuel)
      redirect (.loop true condition (← body fuel)) (← items fuel)
    else if ← isNext "for" then
      advance 3
      skipBlanks
      let name ← nonempty ((← ahead).takeWhile inName)
      advance name.length
      skipLines
      if ← isNext "in" then
        advance 2
        let words ← items fuel
        if words.any Sum.isRight then failure
        if (← ahead).head? = some ';' then advance 1
        redirect (.each name (some (words.filterMap Sum.getLeft?)) (← body fuel)) (← items fuel)
      else
        if (← ahead).head? = some ';' then advance 1
        redirect (.each name none (← body fuel)) (← items fuel)
    else if ← isNext "case" then
      advance 4
      skipBlanks
      let w ← nonempty (← parts fuel endsWord false)
      expectWord "in"
      redirect (.choice w (← choices fuel)) (← items fuel)
    else if ← isNext "\x7b" then
      advance 1
      let b ← nonempty (← list fuel)
      expectWord "\x7d"
      redirect (.sequence b) (← items fuel)
    else if k.rest.head? = some '(' then
      advance 1
      let b ← nonempty (← list fuel)
      skipBlanks
      expect ')'
      redirect (.subshell b) (← items fuel)
    else if closingWords.contains (← nextWord) then failure
    else
      let found ← nonempty (← items fuel)
      match found, ← ahead with
      | [.inl w], '(' :: _ =>
        match functionName? w with
        | none => failure
        | some name =>
          advance 1
          skipBlanks
          expect ')'
          skipLines
          return .function name (← command fuel)
      | _, _ => return simpleOf k.line found

end

/-- The commands of the next line, where at most `limit` characters are ahead; at most `fuel` of
them. -/
def line (limit : Nat) : Nat → Reader Script
  | 0 => failure
  | fuel + 1 => do
    skipBlanks
    match ← ahead with
    | [] => return []
    | '\n' :: _ =>
      advance 1
      return []
    | _ =>
      let c ← andOr (16 * limit + 16)
      match ← ahead with
      | ';' :: ';' :: _ => failure
      | ';' :: _ =>
        advance 1
        return c :: (← line limit fuel)
      | '&' :: _ =>
        advance 1
        return .background c :: (← line limit fuel)
      | '\n' :: _ =>
        advance 1
        return [c]
      | [] => return [c]
      | _ => failure

end Reader

/-- A script as it was read. -/
structure Reading where
  /-- The commands of its lines. -/
  lines : List Script
  /-- The line with a fault, where reading ended; none if there is no fault. -/
  fault? : Option Nat

/-- The script from the cursor on, where at most `limit` characters are ahead; at most `fuel` lines
of it. -/
def readWith (limit : Nat) : Nat → Cursor → Reading
  | 0, _ => ⟨[], none⟩
  | fuel + 1, k =>
    if k.rest.isEmpty then ⟨[], none⟩
    else
      match (Reader.line limit (limit + 1)).run k with
      | none => ⟨[], some k.line⟩
      | some (script, next) =>
        let r := readWith limit fuel next
        { r with lines := script :: r.lines }

/-- **The script from the cursor on.** -/
def readScript (k : Cursor) : Reading :=
  let limit := k.rest.length
  readWith limit (limit + 1) k

end SuiteRunner.Shell
