import SuiteRunner.Json
import SuiteRunner.Settings

/-!
# Settings as JSON

`HarnessConfig` as it is serialized and deserialized.

* `Settings.toJson?`: the settings as an object; none if a path is no text;
* `Settings.ofJson?`: the settings that a text is. An object may leave settings out and have other
  members; an array has the settings in their order, and may end early.
-/

namespace SuiteRunner.Settings

/-! ## Writing -/

/-- The hexadecimal digit of a number below sixteen. -/
def hexDigit (n : Nat) : Char := Nat.digitChar n

/-- A character in a string literal. -/
def escape (c : Char) : List Char :=
  if c = '"' then ['\\', '"']
  else if c = '\\' then ['\\', '\\']
  else if c = '\x08' then ['\\', 'b']
  else if c = '\x0c' then ['\\', 'f']
  else if c = '\n' then ['\\', 'n']
  else if c = '\r' then ['\\', 'r']
  else if c = '\t' then ['\\', 't']
  else if c.toNat < 0x20 then
    ['\\', 'u', '0', '0', hexDigit (c.toNat / 16), hexDigit (c.toNat % 16)]
  else [c]

/-- A text as a string literal. -/
def quote (cs : List Char) : List Char := '"' :: cs.flatMap escape ++ ['"']

/-- A member of an object. -/
def member (n : SettingName) (value : List Char) : List Char :=
  quote n.text.toList ++ ':' :: value

/-- The settings as an object with the four members in their order. -/
def toJson? (s : Settings) : Option (List Char) := do
  let suite ← Utf8.decode? s.suiteDir.bytes
  let exe ← Utf8.decode? s.executable.bytes
  let members :=
    [member .suiteDir (quote suite), member .executable (quote exe),
      member .extension (quote s.extension.toList),
      member .timeoutMs (Nat.toDigits 10 s.timeoutMs.toNat)]
  some ('\x7b' :: List.intercalate [','] members ++ ['\x7d'])

/-! ## Reading -/

/-- The setting `n` with a JSON value for its value: a string that denotes a text for a path or the
suffix, an integer without a sign for the budget. -/
def settingOfJson? (n : SettingName) : Json → Option Setting
  | .string gs => do Setting.ofChars? n (← Json.textOf gs)
  | .number k => if k.isInteger && !k.negative then Setting.ofNat? n k.whole else none
  | _ => none

/-- Read the members of an object into settings; `seen` are those that have a value already. A name
denotes a text, whether or not it is that of a setting. -/
def ofMembers? (seen : List SettingName) (s : Settings) :
    List (List Json.Glyph × Json) → Option Settings
  | [] => some s
  | (name, j) :: ms => do
    match SettingName.ofText? (← Json.textOf name) with
    | none => ofMembers? seen s ms
    | some n =>
      if n ∈ seen then none
      else ofMembers? (n :: seen) (s.put (← settingOfJson? n j)) ms

/-- Read the items of an array into settings; `names` are those that are left. -/
def ofItems? (s : Settings) : List SettingName → List Json → Option Settings
  | _, [] => some s
  | [], _ :: _ => none
  | n :: names, j :: js => do ofItems? (s.put (← settingOfJson? n j)) names js

/-- The settings that a value is. -/
def ofJson? : Json → Option Settings
  | .object ms => ofMembers? [] standard ms
  | .array js => ofItems? standard SettingName.all js
  | _ => none

/-- **The settings that a JSON text is.** -/
def ofJsonText? (cs : List Char) : Option Settings := do ofJson? (← Json.ofText? cs)

end SuiteRunner.Settings
