import SuiteRunner.Json
import SuiteRunner.Proofs.Text.Digits

/-!
# The grammar of JSON texts

`Json.Text j w` says that `w` is a text of the value `j`. Nothing here speaks of the reader: a text
is put together from literals, numerals, and the texts of smaller values, with space between tokens.

* `Body`, `Numeral`: the ways to write a string between its quotes, and a number;
* `Bare`, `Text`: the texts of a value, without and with space around them;
* `Items`, `Members`: what stands between the brackets of an array and the braces of an object.
-/

namespace SuiteRunner.Json

/-- Characters between tokens. -/
def Space (u : List Char) : Prop := ∀ c ∈ u, isSpace c = true

theorem space_nil : Space [] := fun _ hc => absurd hc List.not_mem_nil

/-! ## Strings -/

/-- The ways to write an element of a string. -/
inductive Glyph.WrittenAs : Glyph → List Char → Prop
  | bare {c : Char} (hquote : c ≠ '"') (hslash : c ≠ '\\') (hc : 0x20 ≤ c.toNat) :
      WrittenAs (.char c) [c]
  | short {letter c : Char} (h : shortEscape? letter = some c) : WrittenAs (.char c) ['\\', letter]
  /-- Four hexadecimal digits. -/
  | unit {p q r s : Char} {n : Nat} (h : unit? p q r s = some n) :
      WrittenAs (.unit n) ['\\', 'u', p, q, r, s]

/-- The ways to write a string, between its quotes. -/
inductive Body : List Glyph → List Char → Prop
  | nil : Body [] []
  | cons {g : Glyph} {gs : List Glyph} {w ws : List Char} (hg : g.WrittenAs w) (hgs : Body gs ws) :
      Body (g :: gs) (w ++ ws)

/-! ## Numbers -/

/-- One decimal digit or more. -/
structure AreDigits (ds : List Char) : Prop where
  ne_nil : ds ≠ []
  isDigit : ∀ d ∈ ds, d.isDigit = true

/-- A fraction, or none. -/
inductive Fraction : Bool → List Char → Prop
  | none : Fraction false []
  | point {ds : List Char} (h : AreDigits ds) : Fraction true ('.' :: ds)

/-- An exponent, or none. -/
inductive Exponent : Bool → List Char → Prop
  | none : Exponent false []
  | power {e : Char} {sign ds : List Char} (he : e = 'e' ∨ e = 'E')
      (hsign : sign = [] ∨ sign = ['+'] ∨ sign = ['-']) (h : AreDigits ds) :
      Exponent true (e :: (sign ++ ds))

/-- A minus sign, or none. -/
def signText (negative : Bool) : List Char := if negative then ['-'] else []

/-- The ways to write a number. Its whole part has no zero in front. -/
inductive Numeral : Number → List Char → Prop
  | parts {negative point power : Bool} {whole : Nat} {f e : List Char} (hf : Fraction point f)
      (he : Exponent power e) :
      Numeral ⟨negative, whole, !point && !power⟩
        (signText negative ++ (Nat.toDigits 10 whole ++ (f ++ e)))

/-- A number without a sign, a fraction or an exponent is its digits, and nothing else. -/
theorem numeral_integer_iff {n : Nat} {w : List Char} :
    Numeral ⟨false, n, true⟩ w ↔ w = Nat.toDigits 10 n := by
  constructor
  · intro h
    generalize hk : (⟨false, n, true⟩ : Number) = k at h
    cases h with
    | @parts negative point power whole f e hf he =>
      obtain ⟨rfl, rfl, hinteger⟩ := Number.mk.inj hk
      cases hf with
      | point => cases hinteger
      | none =>
        cases he with
        | power => cases hinteger
        | none => simp [signText]
  · rintro rfl
    have h : Numeral ⟨false, n, true⟩ (signText false ++ (Nat.toDigits 10 n ++ ([] ++ []))) :=
      .parts .none .none
    simpa [signText] using h

/-! ## Values -/

mutual

/-- The texts of a value, without space around them. -/
inductive Bare : Json → List Char → Prop
  | null : Bare .null ['n', 'u', 'l', 'l']
  | yes : Bare (.boolean true) ['t', 'r', 'u', 'e']
  | no : Bare (.boolean false) ['f', 'a', 'l', 's', 'e']
  | number {n : Number} {w : List Char} (h : Numeral n w) : Bare (.number n) w
  | string {gs : List Glyph} {w : List Char} (h : Body gs w) :
      Bare (.string gs) ('"' :: (w ++ ['"']))
  | emptyArray {u : List Char} (hu : Space u) : Bare (.array []) ('[' :: (u ++ [']']))
  | array {xs : List Json} {w : List Char} (h : Items xs w) :
      Bare (.array xs) ('[' :: (w ++ [']']))
  | emptyObject {u : List Char} (hu : Space u) : Bare (.object []) ('\x7b' :: (u ++ ['\x7d']))
  | object {ms : List (List Glyph × Json)} {w : List Char} (h : Members ms w) :
      Bare (.object ms) ('\x7b' :: (w ++ ['\x7d']))

/-- The texts of a value. -/
inductive Text : Json → List Char → Prop
  | spaced {j : Json} {u w v : List Char} (hu : Space u) (hj : Bare j w) (hv : Space v) :
      Text j (u ++ (w ++ v))

/-- The items of an array, at least one. -/
inductive Items : List Json → List Char → Prop
  | last {x : Json} {w : List Char} (hx : Text x w) : Items [x] w
  | more {x : Json} {xs : List Json} {w ws : List Char} (hx : Text x w) (hxs : Items xs ws) :
      Items (x :: xs) (w ++ ',' :: ws)

/-- A member of an object. -/
inductive Member : List Glyph × Json → List Char → Prop
  | named {name : List Glyph} {x : Json} {u k v w : List Char} (hu : Space u) (hk : Body name k)
      (hv : Space v) (hx : Text x w) :
      Member (name, x) (u ++ '"' :: (k ++ '"' :: (v ++ ':' :: w)))

/-- The members of an object, at least one. -/
inductive Members : List (List Glyph × Json) → List Char → Prop
  | last {m : List Glyph × Json} {w : List Char} (hm : Member m w) : Members [m] w
  | more {m : List Glyph × Json} {ms : List (List Glyph × Json)} {w ws : List Char}
      (hm : Member m w) (hms : Members ms ws) : Members (m :: ms) (w ++ ',' :: ws)

end

/-- There need be no space around a value. -/
theorem Bare.text {j : Json} {w : List Char} (h : Bare j w) : Text j w := by
  have htext := Text.spaced space_nil h space_nil
  rwa [List.nil_append, List.append_nil] at htext

end SuiteRunner.Json
