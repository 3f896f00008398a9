import SuiteRunner.Machine.World
import SuiteRunner.Shell.Pattern

/-!
# Words and their fields

What becomes of a word when its values are filled in: a value that is not quoted is cut at blanks,
and a field with a pattern in it is replaced by the names that match.

* `fieldsOf`: the fields that pieces make;
* `namesFor`: the names that a field stands for.
-/

namespace SuiteRunner.Machine

open Shell

/-- A piece of a word when its values are filled in. -/
inductive Piece where
  /-- A character of the word. -/
  | mark (m : Mark)
  /-- A character of a value that is cut at blanks. -/
  | loose (c : Char)
  /-- A field is here, if only an empty one. -/
  | hold
  /-- One field ends, and another starts. -/
  | gap
  deriving Repr

/-- A character that values are cut at. -/
def isSeparator (c : Char) : Bool := c == ' ' || c == '\t' || c == '\n'

/-- The fields that pieces make, with `field?` begun. -/
def fieldsFrom (field? : Option (List Mark)) : List Piece → List (List Mark)
  | [] => field?.toList
  | .mark m :: ps => fieldsFrom (some (field?.getD [] ++ [m])) ps
  | .hold :: ps => fieldsFrom (some (field?.getD [])) ps
  | .gap :: ps => field?.toList ++ fieldsFrom none ps
  | .loose c :: ps =>
    if isSeparator c then field?.toList ++ fieldsFrom none ps
    else fieldsFrom (some (field?.getD [] ++ [⟨c, false⟩])) ps

/-- The fields that pieces make. -/
def fieldsOf (ps : List Piece) : List (List Mark) := fieldsFrom none ps

/-- The characters of pieces where a word is one field in any case. -/
def marksOf (ps : List Piece) : List Mark :=
  ps.filterMap fun
    | .mark m => some m
    | .loose c => some ⟨c, false⟩
    | .hold => none
    | .gap => some ⟨' ', true⟩

/-- The text of marks. -/
def textOf (ms : List Mark) : List Char := ms.map (·.char)

/-- The pieces of a value. -/
def piecesOf (quoted : Bool) (value : List Char) : List Piece :=
  if quoted then .hold :: value.map fun c => .mark ⟨c, true⟩ else value.map .loose

/-! ## Parameters -/

/-- A number as a text. -/
def digitsOf (n : Nat) : List Char := (toString n).toList

/-- The arguments with blanks between them; none if there are no arguments. -/
def allArguments (p : Process) : Option (List Char) :=
  if p.arguments.isEmpty then none else some (List.intercalate [' '] p.arguments)

/-- The value of a parameter. -/
def valueOf? (p : Process) (name : List Char) : Option (List Char) :=
  match name with
  | ['#'] => some (digitsOf p.arguments.length)
  | ['?'] => some (digitsOf p.status)
  | ['$'] => some (digitsOf p.id)
  | ['!'] => p.jobs.head?.map fun j => digitsOf j.1
  | ['-'] => some (if p.strict then ['e'] else [])
  | ['0'] => some p.name
  | ['@'] | ['*'] => allArguments p
  | c :: _ =>
    if c.isDigit then
      match leadingNumber name with
      | 0 => some p.name
      | n + 1 => p.arguments[n]?
    else p.bindings.lookup name
  | [] => none

/-- The pieces of a parameter. -/
def parameterPieces (p : Process) (name : List Char) (quoted : Bool) : List Piece :=
  if name = ['@'] ∨ name = ['*'] ∧ quoted = false then
    List.intercalate [.gap] (p.arguments.map (piecesOf quoted))
  else piecesOf quoted ((valueOf? p name).getD [])

/-- A variable has a value. -/
def assign (p : Process) (name value : List Char) : Process :=
  { p with bindings := (name, value) :: p.bindings.filter fun v => v.1 != name }

/-! ## Names -/

/-- A path with one more name. -/
def extend (base name : List Char) : List Char :=
  charsOf ((Act.pathOf base).join (Act.pathOf name)).bytes

/-- The names in a directory that a pattern matches, in order. A dot at the start of a name is
matched only by a dot. -/
def matching (t : Tree) (base : List Char) (piece : List Mark) : List (List Char) :=
  let pattern := Pattern.ofMarks piece
  let names := match t.list (if base = [] then Path.ofString "." else Act.pathOf base) with
    | .ok names => names.map charsOf
    | .error _ => []
  let visible := fun n : List Char =>
    n.head? != some '.' || (piece.head?.map (·.char)) == some '.'
  (names.filter fun n => visible n && pattern.fits n).mergeSort fun a b => (compare a b).isLE

/-- The paths that pieces of a field lead to from some paths. -/
def leadingTo (t : Tree) : List (List Char) → List (List Mark) → List (List Char)
  | bases, [] => bases
  | bases, piece :: pieces =>
    let next := if (Pattern.ofMarks piece).isOpen then
        bases.flatMap fun b => (matching t b piece).map (extend b)
      else
        (bases.map fun b => extend b (textOf piece)).filter fun p =>
          (t.resolve false (Act.pathOf p)).toBool
    leadingTo t next pieces

/-- The names that a field stands for: the text itself, if it has no pattern or nothing matches. -/
def namesFor (t : Tree) (field : List Mark) : List (List Char) :=
  if (Pattern.ofMarks field).isOpen then
    let pieces := field.splitOnP fun m => m.char == '/'
    let found := match pieces with
      | [] :: rest => leadingTo t [['/']] (rest.filter (· != []))
      | pieces => leadingTo t [[]] (pieces.filter (· != []))
    if found.isEmpty then [textOf field] else found
  else [textOf field]

end SuiteRunner.Machine
