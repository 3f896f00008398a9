/-!
# Tables of a TOML document

A document is a list of statements, and a table is built from it, statement by statement, as `toml`
does. What may be said twice, and about whom, depends on how a table came to be (`Origin`).

* `Value`: the values of a document, tables among them;
* `assign`: `a.b.c = value` inside a table;
* `Fields.ofStatements?`: the table of a whole document.

A name never gets two values: each rule below that would give it a second one answers none.
-/

namespace SuiteRunner.Toml

/-- A key: any text. -/
abbrev Key := List Char

/-- How a table came to be. -/
inductive Origin where
  /-- Its own header, or the document itself. -/
  | header
  /-- The header of a table below it. -/
  | implied
  /-- A dotted key. -/
  | dotted
  deriving DecidableEq, Repr

/-- A value. Of a value that no setting can take, only what it is is kept. -/
inductive Value where
  | text (s : List Char)
  | integer (n : Int)
  | float
  | boolean (b : Bool)
  /-- A date, a time, or both. -/
  | moment
  | array (items : List Value)
  /-- A table in braces: closed, nothing is added to it later. -/
  | inline (fields : List (Key × Value))
  /-- A table that statements write to. -/
  | table (origin : Origin) (fields : List (Key × Value))
  /-- An array of tables, one per header; statements write to the last. -/
  | tables (rows : List (List (Key × Value)))
  deriving Repr

/-- The fields of a table, in the order in which they came. -/
abbrev Fields := List (Key × Value)

/-- The fields with another value for `k`. -/
def Fields.replace (fs : Fields) (k : Key) (v : Value) : Fields :=
  fs.map fun f => if f.1 = k then (k, v) else f

/-- The fields with one more. -/
def Fields.extend (fs : Fields) (k : Key) (v : Value) : Fields := fs ++ [(k, v)]

/-! ## Going down a path -/

/-- Change the table at `path` below a table of origin `o`, making the tables on the way that are
not there. Going down from a header leads into every table and into the last row of an array;
going down a dotted key does not lead into a table that has a header of its own. -/
def descend (dotted : Bool) (change : Origin → Fields → Option Fields) :
    List Key → Origin → Fields → Option Fields
  | [], o, fs => change o fs
  | k :: ks, _, fs =>
    match fs.lookup k with
    | none =>
      let o := if dotted then Origin.dotted else .implied
      (descend dotted change ks o []).map fun sub => fs.extend k (.table o sub)
    | some (.table o sub) =>
      if dotted && o == .header then none
      else (descend dotted change ks o sub).map fun sub => fs.replace k (.table o sub)
    | some (.tables rows) =>
      match rows.getLast? with
      | none => none
      | some row =>
        (descend dotted change ks .header row).map fun row =>
          fs.replace k (.tables (rows.dropLast ++ [row]))
    | some _ => none

/-- Give `k` a value in a table of origin `o`, at the end of a dotted key or not: a dotted key
writes to tables that dotted keys made, and a bare key to those that none did. -/
def put (viaDots : Bool) (k : Key) (v : Value) (o : Origin) (fs : Fields) : Option Fields :=
  if (o == .dotted) != viaDots then none
  else if (fs.lookup k).isSome then none
  else some (fs.extend k v)

/-- `path.k = v` inside a table of origin `o`. -/
def assign (path : List Key) (k : Key) (v : Value) (o : Origin) (fs : Fields) : Option Fields :=
  descend true (put (!path.isEmpty) k v) path o fs

/-! ## Statements -/

/-- A statement of a document. -/
inductive Statement where
  /-- `path.key = value`. -/
  | assign (path : List Key) (key : Key) (value : Value)
  /-- `[path.key]`. -/
  | header (path : List Key) (key : Key)
  /-- `[[path.key]]`. -/
  | arrayHeader (path : List Key) (key : Key)
  deriving Repr

/-- Give the table `k` a header: it is new, or known from the headers of tables below it only. -/
def openTable (k : Key) (_ : Origin) (fs : Fields) : Option Fields :=
  match fs.lookup k with
  | none => some (fs.extend k (.table .header []))
  | some (.table .implied sub) => some (fs.replace k (.table .header sub))
  | some _ => none

/-- One more row for the array of tables `k`. -/
def openRow (k : Key) (_ : Origin) (fs : Fields) : Option Fields :=
  match fs.lookup k with
  | none => some (fs.extend k (.tables [[]]))
  | some (.tables rows) => some (fs.replace k (.tables (rows ++ [[]])))
  | some _ => none

/-- A document as far as it is read: its fields, and the path of the table that bare statements
write to. -/
structure Progress where
  /-- The fields of the document. -/
  fields : Fields
  /-- The path of the last header. -/
  current : List Key

/-- One more statement. -/
def Progress.step (p : Progress) : Statement → Option Progress
  | .assign path k v =>
    (descend false (assign path k v) p.current .header p.fields).map ({ p with fields := · })
  | .header path k =>
    (descend false (openTable k) path .header p.fields).map (⟨·, path ++ [k]⟩)
  | .arrayHeader path k =>
    (descend false (openRow k) path .header p.fields).map (⟨·, path ++ [k]⟩)

/-- **The fields of the document that makes these statements**, if no statement contradicts an
earlier one. -/
def Fields.ofStatements? (ss : List Statement) : Option Fields :=
  (ss.foldlM Progress.step ⟨[], []⟩).map (·.fields)

end SuiteRunner.Toml
