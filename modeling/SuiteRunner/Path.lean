import SuiteRunner.Text.Utf8

/-!
# Paths

A path is a byte string, kept as it was written. Its components say what it means: repeated
slashes, a slash at the end and inner dots carry nothing, `..` does.

* `Path.join`, `Path.parent`: building a path and taking its last name off (`join`, `parent`);
* `Path.components`: the component list, on which order and equality of paths rest (`components`);
* `Path.display`: the text a path is shown as (`display`).
-/

namespace SuiteRunner

/-- A path: any bytes. -/
structure Path where
  /-- The bytes as written. -/
  bytes : Bytes
  deriving DecidableEq, Repr

namespace Path

/-- The byte of `/`. -/
def slash : UInt8 := 0x2F

/-- The byte of `.`. -/
def dot : UInt8 := 0x2E

/-- The path with the bytes of `s`. -/
def ofString (s : String) : Path := ⟨Bytes.ofString s⟩

/-- The text that a path is shown as. -/
def display (p : Path) : String := Utf8.lossy p.bytes

/-- `p` starts at the root. -/
def isAbsolute (p : Path) : Bool := p.bytes.head? == some slash

/-- The bytes between slashes; one empty piece for an empty path. -/
def pieces (bs : Bytes) : List Bytes := bs.splitOn slash

/-- The pieces with slashes between them. -/
def unite (ps : List Bytes) : Bytes := List.intercalate [slash] ps

/-! ## Components -/

/-- A component of a path. -/
inductive Component where
  /-- The root. -/
  | root
  /-- A dot at the start of a relative path. -/
  | here
  /-- The parent directory. -/
  | up
  /-- An entry of a directory. -/
  | name (n : Bytes)
  deriving DecidableEq, Repr, Hashable

namespace Component

/-- Root, dot, two dots, names. -/
def rank : Component → Nat
  | root => 0
  | here => 1
  | up => 2
  | name _ => 3

/-- The bytes of a name. -/
def text : Component → Bytes
  | name n => n
  | _ => []

/-- Components by rank, names bytewise. -/
instance : Ord Component where
  compare := compareLex (compareOn rank) (compareOn text)

/-- What a piece after the first stands for. -/
def ofPiece (piece : Bytes) : Option Component :=
  if piece = [] ∨ piece = [dot] then none
  else if piece = [dot, dot] then some up
  else some (name piece)

end Component

/-- The components of a path. -/
def components (p : Path) : List Component :=
  if p.isAbsolute then .root :: (pieces p.bytes).filterMap Component.ofPiece
  else
    match pieces p.bytes with
    | [] => []
    | first :: rest =>
      (if first = [dot] then [.here] else (Component.ofPiece first).toList) ++
        rest.filterMap Component.ofPiece

/-- Two paths with the same components. -/
def same (p q : Path) : Bool := p.components == q.components

/-! ## Building and taking apart -/

/-- `q` looked up from `p`: an absolute `q` stands for itself. -/
def join (p q : Path) : Path :=
  if q.isAbsolute then q
  else if p.bytes = [] ∨ p.bytes.getLast? = some slash then ⟨p.bytes ++ q.bytes⟩
  else ⟨p.bytes ++ slash :: q.bytes⟩

/-- The part of a path that no component is taken from, and the pieces after it: the root, or the
dot that a relative path starts with. -/
def split (p : Path) : Bytes × List Bytes :=
  match p.bytes with
  | [] => ([], [])
  | b :: bs =>
    if b = slash then ([slash], pieces bs)
    else
      match pieces (b :: bs) with
      | [] => ([], [])
      | first :: rest => if first = [dot] then ([dot], [] :: rest) else ([], first :: rest)

/-- The pieces before those at the end that stand for nothing. -/
def trim (ps : List Bytes) : List Bytes :=
  (ps.reverse.dropWhile fun q => (Component.ofPiece q).isNone).reverse

/-- `p` without its last component, and without the slashes and dots around it; none for the root
and for the empty path. -/
def parent (p : Path) : Option Path :=
  let (start, ps) := p.split
  match trim ps with
  | [] => if start = [dot] then some ⟨[]⟩ else none
  | q :: qs => some ⟨start ++ unite (trim (q :: qs).dropLast)⟩

end Path

end SuiteRunner
