import SuiteRunner.Toml.Moment
import SuiteRunner.Toml.Number
import SuiteRunner.Toml.Table
import SuiteRunner.Toml.Text

/-!
# Reading a TOML document

From text to statements, and with `Fields.ofStatements?` to the fields of the document: what `toml`
reads, as far as `load` looks at it.

* `keyPath`: a key, with dots or without;
* `valueOf`: a value; arrays and tables in braces nest less than `depthLimit` deep;
* `statements`: the statements of a document, one to a line;
* `ofText?`: the fields of a document.
-/

namespace SuiteRunner.Toml

/-- Values nest less deeply than this, and a key path has fewer parts. -/
def depthLimit : Nat := 80

/-! ## Between tokens -/

/-- A text without the gaps it starts with. -/
def skipGaps (cs : List Char) : List Char := cs.dropWhile isGap

/-- A text without the gaps, line breaks and comments it starts with; `inComment` says that it
starts inside a comment. -/
def skipFill : (inComment : Bool) → List Char → List Char
  | _, [] => []
  | inComment, c :: cs =>
    if inComment && isPlain c then skipFill true cs
    else if c == '#' then skipFill true cs
    else if isGap c || c == '\n' || (c == '\r' && cs.head? == some '\n') then skipFill false cs
    else c :: cs

/-- A text without the comment it starts with. -/
def skipComment : List Char → List Char
  | '#' :: cs => cs.dropWhile isPlain
  | cs => cs

/-- What follows the end of a line: gaps, a comment, and a line break or the end of the text. -/
def endLine (cs : List Char) : Option (List Char) :=
  match skipComment (skipGaps cs) with
  | [] => some []
  | cs => afterBreak? cs

/-! ## Keys -/

/-- A character of a bare key. -/
def isKeyChar (c : Char) : Bool := c.isAlphanum || c == '-' || c == '_'

/-- One part of a key. -/
def keyPart : List Char → Option (Key × List Char)
  | '"' :: cs => basic cs
  | '\'' :: cs => literal cs
  | cs =>
    match cs.takeWhile isKeyChar with
    | [] => none
    | k => some (k, cs.dropWhile isKeyChar)

/-- A key: its parts before the last, the last, and what follows, gaps skipped. -/
def keyPath : (parts : Nat) → List Char → Option (List Key × Key × List Char)
  | 0, _ => none
  | n + 1, cs => do
    let (k, rest) ← keyPart (skipGaps cs)
    match skipGaps rest with
    | '.' :: rest =>
      let (ks, last, rest) ← keyPath n rest
      some (k :: ks, last, rest)
    | rest => some ([], k, rest)

/-! ## Values -/

/-- Number, date or time. A date is tried before a number, as it starts with one. -/
def numeral (cs : List Char) : Option (Value × List Char) :=
  match moment cs with
  | some rest => some (.moment, rest)
  | none =>
    match float cs with
    | some rest => some (.float, rest)
    | none => (integer cs).map fun (n, rest) => (.integer n, rest)

/-- A value that is no array and no table. -/
def scalar : List Char → Option (Value × List Char)
  | 't' :: 'r' :: 'u' :: 'e' :: rest => some (.boolean true, rest)
  | 'f' :: 'a' :: 'l' :: 's' :: 'e' :: rest => some (.boolean false, rest)
  | '"' :: cs => (stringOf ('"' :: cs)).map fun (s, rest) => (.text s, rest)
  | '\'' :: cs => (stringOf ('\'' :: cs)).map fun (s, rest) => (.text s, rest)
  | cs => numeral cs

/-- The items of an array after its opening bracket, each read by `item`. A comma may follow the
last one. -/
def items (item : List Char → Option (Value × List Char)) :
    Nat → List Char → Option (List Value × List Char)
  | 0, _ => none
  | fuel + 1, cs =>
    match skipFill false cs with
    | ']' :: rest => some ([], rest)
    | cs => do
      let (v, rest) ← item cs
      match skipFill false rest with
      | ',' :: rest =>
        let (vs, rest) ← items item fuel rest
        some (v :: vs, rest)
      | ']' :: rest => some ([v], rest)
      | _ => none

/-- A key, an equals sign, and a value read by `item`. -/
def binding (item : List Char → Option (Value × List Char)) (cs : List Char) :
    Option ((List Key × Key × Value) × List Char) := do
  let (path, k, rest) ← keyPath (depthLimit - 1) cs
  let rest ← after? '=' rest
  let (v, rest) ← item (skipGaps rest)
  some ((path, k, v), rest)

/-- The bindings of a table in braces, at least one, and the brace that closes it. -/
def bindings (item : List Char → Option (Value × List Char)) :
    Nat → Fields → List Char → Option (Fields × List Char)
  | 0, _, _ => none
  | fuel + 1, fs, cs => do
    let ((path, k, v), rest) ← binding item cs
    let fs ← assign path k v .header fs
    match skipGaps rest with
    | ',' :: rest => bindings item fuel fs rest
    | '\x7d' :: rest => some (fs, rest)
    | _ => none

/-- A value with at most `depth` arrays and tables in braces around anything in it. -/
def valueOf : (depth : Nat) → List Char → Option (Value × List Char)
  | 0, cs => if cs.head? = some '[' ∨ cs.head? = some '\x7b' then none else scalar cs
  | depth + 1, cs =>
    match cs with
    | '[' :: rest =>
      (items (valueOf depth) (rest.length + 1) rest).map fun (vs, rest) => (.array vs, rest)
    | '\x7b' :: rest =>
      match skipGaps rest with
      | '\x7d' :: rest => some (.inline [], rest)
      | _ =>
        (bindings (valueOf depth) (rest.length + 1) [] rest).map fun (fs, rest) =>
          (.inline fs, rest)
    | cs => scalar cs

/-! ## Statements -/

/-- A header of an array of tables, after its opening brackets. -/
def arrayHeader (cs : List Char) : Option (Statement × List Char) := do
  let (path, k, rest) ← keyPath (depthLimit - 1) cs
  let rest ← after? ']' rest
  let rest ← after? ']' rest
  some (.arrayHeader path k, rest)

/-- A header of a table, after its opening bracket. -/
def tableHeader (cs : List Char) : Option (Statement × List Char) := do
  let (path, k, rest) ← keyPath (depthLimit - 1) cs
  let rest ← after? ']' rest
  some (.header path k, rest)

/-- A statement, up to the end of its line. -/
def statement : List Char → Option (Statement × List Char)
  | '[' :: '[' :: cs => arrayHeader cs
  | '[' :: cs => tableHeader cs
  | cs => do
    let ((path, k, v), rest) ← binding (valueOf (depthLimit - 1)) cs
    some (.assign path k v, rest)

/-- The statements of a text, each on a line of its own. -/
def statements : Nat → List Char → Option (List Statement)
  | 0, _ => none
  | fuel + 1, cs =>
    match skipGaps cs with
    | [] => some []
    | '#' :: cs => do statements fuel (← endLine ('#' :: cs))
    | '\n' :: cs => statements fuel cs
    | '\r' :: '\n' :: cs => statements fuel cs
    | cs => do
      let (s, rest) ← statement cs
      let ss ← statements fuel (← endLine rest)
      some (s :: ss)

/-- A text without the mark of its byte order. -/
def skipMark : List Char → List Char
  | c :: cs => if c = Char.ofNat 0xFEFF then cs else c :: cs
  | [] => []

/-- **The fields of the document that a text is.** Every line but the last takes a character. -/
def ofText? (cs : List Char) : Option Fields := do
  Fields.ofStatements? (← statements (cs.length + 1) (skipMark cs))

end SuiteRunner.Toml
