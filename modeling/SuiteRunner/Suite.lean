import SuiteRunner.Journal
import SuiteRunner.Tree.Lookup

/-!
# Suites

The test files of a directory: the regular files right in it whose names have the suffix, in the
order of their paths.

* `TestFile`: a path that is compared by its components;
* `Suite.discover`: the tests of a directory, and the notes made on the way (`discover`);
* `TestFile.optsOut`: a test is not to be run (`is_ignored`).
-/

namespace SuiteRunner

/-- A test file. Two of them are the same if their paths have the same components. -/
structure TestFile where
  /-- The path as it was built. -/
  path : Path
  deriving Repr

namespace TestFile

instance : BEq TestFile where
  beq a b := a.path.components == b.path.components

instance : Hashable TestFile where
  hash a := hash a.path.components

instance : Ord TestFile where
  compare := compareOn fun a => a.path.components

/-- The text that a test is shown as. -/
def display (t : TestFile) : String := t.path.display

/-- `a` stands before `b` or with it. -/
def le (a b : TestFile) : Bool := (compare a b).isLE

/-- Test files in order; those that are the same keep theirs. -/
def sort (ts : List TestFile) : List TestFile := ts.mergeSort le

end TestFile

namespace Suite

/-- What is found under one name of a directory. -/
inductive Find where
  /-- The name has another suffix. -/
  | unrelated
  /-- A test file. -/
  | test (t : TestFile)
  /-- No regular file. -/
  | other (p : Path)
  /-- Nothing that can be looked at. -/
  | unreadable (p : Path) (cause : Fault)
  deriving Repr

/-- What is found under the name `n` in `dir`. -/
def find (t : Tree) (dir : Path) (suffix : Bytes) (n : Name) : Find :=
  if suffix.isSuffixOf n then
    let p := dir.join ⟨n⟩
    match t.kindOf p with
    | .ok .regular => .test ⟨p⟩
    | .ok .other => .other p
    | .error cause => .unreadable p cause
  else .unrelated

/-- The test file of a find. -/
def Find.test? : Find → Option TestFile
  | test t => some t
  | _ => none

/-- The note on a find. -/
def Find.note? : Find → Option Note
  | other p => some (.skippedOther p)
  | unreadable p cause => some (.skippedUnreadable p cause)
  | _ => none

/-- A suite as it was found. -/
structure Discovery where
  /-- The tests in order. -/
  tests : List TestFile
  /-- The notes made on the way. -/
  notes : List Note
  deriving Repr

/-- The suite that the names of a directory make, in whatever order they are listed. -/
def ofNames (t : Tree) (dir : Path) (extension : String) (names : List Name) : Discovery :=
  let finds := names.map (find t dir (Bytes.ofString extension))
  let tests := TestFile.sort (finds.filterMap Find.test?)
  ⟨tests, finds.filterMap Find.note? ++ [.discovered dir tests.length]⟩

/-- **The tests of the directory `dir`.** -/
def discover (t : Tree) (dir : Path) (extension : String) : Except Failure Discovery :=
  match t.list dir with
  | .ok names => .ok (ofNames t dir extension names)
  | .error cause => .error (.suiteUnreadable dir cause)

end Suite

/-- Whether the test opts out, if opening its file gives `opened`: a reader, or a fault. Whatever
goes wrong, the test is unreadable for that. -/
def TestFile.optsOutOf (test : TestFile) (opened : Except Fault (Marker.Source Fault)) :
    Except Failure Bool :=
  match opened.bind Marker.Source.startsWithMarker with
  | .ok b => .ok b
  | .error cause => .error (.testUnreadable test.path cause)

/-- **The file of a test starts with the marker**, after blank characters. -/
def TestFile.optsOut (t : Tree) (test : TestFile) : Except Failure Bool :=
  test.optsOutOf (t.openFile test.path)

end SuiteRunner
