import SuiteRunner.Machine.Utility.Basic

/-!
# Conditions

A condition on texts, numbers and files: success if it holds.
-/

namespace SuiteRunner.Machine.Utility

open Act

/-- A condition on one text. -/
def testOne (t : Tree) (op : Char) (a : List Char) : Option Bool :=
  let p := pathOf a
  let entry? := (t.entryOf p).toOption
  match op with
  | 'n' => some (!a.isEmpty)
  | 'z' => some a.isEmpty
  | 'e' | 'w' => some entry?.isSome
  | 'r' => some (match entry? with
      | some (.file f) => f.denied?.isNone
      | e? => e?.isSome)
  | 'f' => some (match entry? with | some (.file ..) => true | _ => false)
  | 'd' => some (t.isDirectory p)
  | 's' => some (match entry? with
      | some (.file f) => !f.content.isEmpty
      | some .directory => true
      | _ => false)
  | 'x' => some (match entry? with
      | some (.file f) => f.executable
      | some .directory => true
      | _ => false)
  | 'L' | 'h' => some (match (t.resolve false p).toOption.bind t.entry? with
      | some (.link _) => true
      | _ => false)
  | 't' => some false
  | _ => none

/-- A condition on two texts. -/
def testTwo (op : List Char) (a b : List Char) : Option Bool :=
  let x := numberOf a
  let y := numberOf b
  match String.ofList op with
  | "=" => some (a == b)
  | "!=" => some (a != b)
  | "-eq" => some (x == y)
  | "-ne" => some (x != y)
  | "-lt" => some (decide (x < y))
  | "-le" => some (decide (x ≤ y))
  | "-gt" => some (decide (y < x))
  | "-ge" => some (decide (y ≤ x))
  | _ => none

/-- The condition that arguments are. -/
def testAll (t : Tree) : List (List Char) → Option Bool
  | [] => some false
  | ['!'] :: rest =>
    match rest with
    | [] => some true
    | a :: rest => (testAll t (a :: rest)).map (!·)
  | [a] => some (!a.isEmpty)
  | [['-', op], a] => testOne t op a
  | [a, op, b] => testTwo op a b
  | [a, op, b, join, c, d, e] => do
    let x ← testTwo op a b
    let y ← testTwo d c e
    if join = ['-', 'a'] then some (x && y) else if join = ['-', 'o'] then some (x || y) else none
  | _ => none

/-- Success if a condition holds. -/
def test : Utility := fun arguments => do
  match testAll (← tree) arguments with
  | some b => return if b then 0 else 1
  | none =>
    complain "test: unexpected operator".toList
    return 2

/-- The condition between brackets. -/
def bracket : Utility := fun arguments => do
  match lastOf (['['] :: arguments) with
  | some (_ :: condition, [']']) => test condition
  | _ =>
    complain "[: missing ]".toList
    return 2

end SuiteRunner.Machine.Utility
