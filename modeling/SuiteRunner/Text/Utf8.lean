/-!
# UTF-8, one byte at a time

A decoder is a value, `Pending`, that says what the next byte may be; `feed` gives it that byte.
Everything that reads bytes as text (`scan_space`, `load`, the `display` of a path) is a run of it:

* `decode?`: the text of a byte string that is well-formed UTF-8 from end to end;
* `lossy`: the text of any byte string, each maximal ill-formed part shown as U+FFFD;
* `encode`: the bytes of a text.
-/

namespace SuiteRunner

/-- A string of bytes: the content of a file, a path, an argument. -/
abbrev Bytes := List UInt8

namespace Utf8

/-! ## The decoder -/

/-- Where a decoder stands between two bytes. -/
inductive Pending where
  /-- Between characters. -/
  | idle
  /-- Inside a character: `left + 1` bytes are owed, the next of them in `low … high`, and
  `bits` has been read of the code point. -/
  | owed (left low high bits : Nat)
  deriving DecidableEq, Repr

/-- What becomes of a decoder that is given a byte. -/
inductive Fed where
  /-- The byte completes `c`. -/
  | char (c : Char)
  /-- The byte belongs to a character that is not complete yet. -/
  | more (p : Pending)
  /-- No character continues with this byte. -/
  | refused
  deriving DecidableEq, Repr

/-- The first byte of a character. The second bytes after `E0`, `ED`, `F0` and `F4` have ranges of
their own: they keep out overlong forms, surrogates and code points above U+10FFFF. -/
def lead (b : Nat) : Fed :=
  if b < 0x80 then .char (Char.ofNat b)
  else if b < 0xC2 then .refused
  else if b < 0xE0 then .more (.owed 0 0x80 0xBF (b - 0xC0))
  else if b = 0xE0 then .more (.owed 1 0xA0 0xBF 0)
  else if b = 0xED then .more (.owed 1 0x80 0x9F 0xD)
  else if b < 0xF0 then .more (.owed 1 0x80 0xBF (b - 0xE0))
  else if b = 0xF0 then .more (.owed 2 0x90 0xBF 0)
  else if b < 0xF4 then .more (.owed 2 0x80 0xBF (b - 0xF0))
  else if b = 0xF4 then .more (.owed 2 0x80 0x8F 4)
  else .refused

/-- The decoder `p` after the byte `b`. -/
def feed : Pending → UInt8 → Fed
  | .idle, b => lead b.toNat
  | .owed left low high bits, b =>
    if low ≤ b.toNat ∧ b.toNat ≤ high then
      let bits := bits * 64 + (b.toNat - 0x80)
      match left with
      | 0 => .char (Char.ofNat bits)
      | left + 1 => .more (.owed left 0x80 0xBF bits)
    else .refused

/-! ## Bytes to text -/

/-- The characters that `p` reads from `bs`, if they are well-formed and complete. -/
def decodeFrom : Pending → Bytes → Option (List Char)
  | .idle, [] => some []
  | .owed .., [] => none
  | p, b :: bs =>
    match feed p b with
    | .char c => (decodeFrom .idle bs).map (c :: ·)
    | .more q => decodeFrom q bs
    | .refused => none

/-- The text that `bs` encodes, if it is well-formed. -/
def decode? (bs : Bytes) : Option (List Char) :=
  decodeFrom .idle bs

/-- The sign for bytes that encode nothing. -/
def replacement : Char := Char.ofNat 0xFFFD

/-- The characters that `p` reads from `bs`. A byte that cannot continue a character ends it, and
is looked at again as the first byte of the next one. -/
def lossyFrom : Pending → Bytes → List Char
  | .idle, [] => []
  | .owed .., [] => [replacement]
  | .idle, b :: bs =>
    match feed .idle b with
    | .char c => c :: lossyFrom .idle bs
    | .more q => lossyFrom q bs
    | .refused => replacement :: lossyFrom .idle bs
  | .owed left low high bits, b :: bs =>
    match feed (.owed left low high bits) b with
    | .char c => c :: lossyFrom .idle bs
    | .more q => lossyFrom q bs
    | .refused =>
      replacement ::
        match feed .idle b with
        | .char c => c :: lossyFrom .idle bs
        | .more q => lossyFrom q bs
        | .refused => replacement :: lossyFrom .idle bs

/-- The text that `bs` is shown as. -/
def lossy (bs : Bytes) : String :=
  String.ofList (lossyFrom .idle bs)

/-! ## Text to bytes -/

/-- The bytes of a text. -/
def encode (cs : List Char) : Bytes :=
  cs.flatMap String.utf8EncodeChar

end Utf8

/-- The bytes of a string. -/
def Bytes.ofString (s : String) : Bytes :=
  Utf8.encode s.toList

end SuiteRunner
