import Mathlib.Algebra.Group.Nat.Defs
import SuiteRunner.Text.Utf8

/-!
# The decoder reads what the encoder writes

A decoder that is fed bytes reads a character from them (`Reads`), is led on to another state by
them (`Leads`), or refuses one of them; it does one of the three with every byte string
(`reads_or_leads_or_refused`).

**`reads_idle_iff`**: from between two characters, the decoder reads `c` from exactly one byte
string, the encoding of `c`. The ranges of the second bytes are what makes this hold: they leave
out every other way to write a code point, and every number that is none. So a byte string is a
text in one way at most (`decode?_eq_some_iff`).
-/

namespace SuiteRunner.Utf8

/-! ## What becomes of a byte string -/

/-- `p` reads the character `c` from the bytes, and needs all of them for it. -/
inductive Reads : Pending → Bytes → Char → Prop
  | last {p : Pending} {b : UInt8} {c : Char} (h : feed p b = .char c) : Reads p [b] c
  | more {p q : Pending} {b : UInt8} {bs : Bytes} {c : Char} (h : feed p b = .more q)
      (hq : Reads q bs c) : Reads p (b :: bs) c

/-- `p` is `q` after the bytes, and no character was completed by them. -/
inductive Leads : Pending → Bytes → Pending → Prop
  | nil (p : Pending) : Leads p [] p
  | cons {p q r : Pending} {b : UInt8} {bs : Bytes} (h : feed p b = .more q)
      (hq : Leads q bs r) : Leads p (b :: bs) r

/-- **A decoder reads a character, waits for more of it, or refuses a byte.** -/
theorem reads_or_leads_or_refused (p : Pending) (bs : Bytes) :
    (∃ cs rest c, bs = cs ++ rest ∧ Reads p cs c) ∨ (∃ q, Leads p bs q) ∨
      ∃ cs rest b q, bs = cs ++ b :: rest ∧ Leads p cs q ∧ feed q b = .refused := by
  induction bs generalizing p with
  | nil => exact Or.inr (Or.inl ⟨p, Leads.nil p⟩)
  | cons b bs ih =>
    cases h : feed p b with
    | char c => exact Or.inl ⟨[b], bs, c, rfl, Reads.last h⟩
    | refused => exact Or.inr (Or.inr ⟨[], bs, b, p, rfl, Leads.nil p, h⟩)
    | more q =>
      rcases ih q with ⟨cs, rest, c, rfl, hr⟩ | ⟨r, hr⟩ | ⟨cs, rest, d, r, rfl, hr, hd⟩
      · exact Or.inl ⟨b :: cs, rest, c, rfl, Reads.more h hr⟩
      · exact Or.inr (Or.inl ⟨r, Leads.cons h hr⟩)
      · exact Or.inr (Or.inr ⟨b :: cs, rest, d, r, rfl, Leads.cons h hr, hd⟩)

theorem Leads.trans {p q r : Pending} {as bs : Bytes} (h : Leads p as q) (hq : Leads q bs r) :
    Leads p (as ++ bs) r := by
  induction h with
  | nil => exact hq
  | cons hb _ ih => exact Leads.cons hb (ih hq)

/-! ## The bytes after the first -/

/-- The last `left + 1` bytes of the code point `v`, six bits in each. -/
def trail : (left v : Nat) → Bytes
  | 0, v => [UInt8.ofNat (v % 64 + 0x80)]
  | left + 1, v => UInt8.ofNat (v / 64 ^ (left + 1) % 64 + 0x80) :: trail left v

/-- `v` is a number that a decoder can come to when it owes `left + 1` bytes, the next of them in
`low … high`, and has read `bits`. -/
structure Comes (left low high bits v : Nat) : Prop where
  read : v / 64 ^ (left + 1) = bits
  low_le : low ≤ v / 64 ^ left % 64 + 0x80
  le_high : v / 64 ^ left % 64 + 0x80 ≤ high

theorem toNat_continuation (n : Nat) : (UInt8.ofNat (n % 64 + 0x80)).toNat = n % 64 + 0x80 := by
  rw [UInt8.toNat_ofNat']
  omega

theorem ofNat_toNat_eq {b : UInt8} {n : Nat} (h : b.toNat = n) : b = UInt8.ofNat n := by
  rw [← h, UInt8.ofNat_toNat]

/-- The number of the last byte. -/
theorem comes_zero_iff {low high bits v : Nat} {b : UInt8} (hlow : 0x80 ≤ low)
    (hhigh : high ≤ 0xBF) :
    (Comes 0 low high bits v ∧ b = UInt8.ofNat (v % 64 + 0x80)) ↔
      (low ≤ b.toNat ∧ b.toNat ≤ high) ∧ v = bits * 64 + (b.toNat - 0x80) := by
  constructor
  · rintro ⟨⟨hread, hl, hh⟩, rfl⟩
    rw [toNat_continuation]
    simp only [Nat.pow_zero, Nat.div_one, Nat.zero_add, Nat.pow_one] at hread hl hh
    omega
  · rintro ⟨⟨hl, hh⟩, hv⟩
    have hmod : v % 64 + 0x80 = b.toNat := by omega
    refine ⟨⟨?_, ?_, ?_⟩, ?_⟩
    · simp only [Nat.zero_add, Nat.pow_one]
      omega
    · rw [Nat.pow_zero, Nat.div_one, hmod]
      exact hl
    · rw [Nat.pow_zero, Nat.div_one, hmod]
      exact hh
    · rw [hmod, UInt8.ofNat_toNat]

/-- The number of an earlier byte: what is read with it is what the decoder goes on with. -/
theorem comes_succ_iff {left low high bits v : Nat} {b : UInt8} (hlow : 0x80 ≤ low)
    (hhigh : high ≤ 0xBF) :
    (Comes (left + 1) low high bits v ∧ b = UInt8.ofNat (v / 64 ^ (left + 1) % 64 + 0x80)) ↔
      (low ≤ b.toNat ∧ b.toNat ≤ high) ∧
        Comes left 0x80 0xBF (bits * 64 + (b.toNat - 0x80)) v := by
  have hdiv : v / 64 ^ (left + 1 + 1) = v / 64 ^ (left + 1) / 64 := by
    rw [Nat.pow_succ, Nat.div_div_eq_div_mul]
  constructor
  · rintro ⟨⟨hread, hl, hh⟩, rfl⟩
    rw [toNat_continuation]
    rw [hdiv] at hread
    exact ⟨⟨hl, hh⟩, ⟨by omega, by omega, by omega⟩⟩
  · rintro ⟨⟨hl, hh⟩, ⟨hread, -, -⟩⟩
    refine ⟨⟨?_, ?_, ?_⟩, ?_⟩
    · rw [hdiv, hread]
      omega
    · rw [hread]
      omega
    · rw [hread]
      omega
    · apply ofNat_toNat_eq
      rw [hread]
      omega

/-- **Inside a character**, the decoder reads the numbers that it can come to, each from its last
bytes. -/
theorem reads_owed_iff {left low high bits : Nat} {bs : Bytes} {c : Char} (hlow : 0x80 ≤ low)
    (hhigh : high ≤ 0xBF) :
    Reads (.owed left low high bits) bs c ↔
      ∃ v, Comes left low high bits v ∧ c = Char.ofNat v ∧ bs = trail left v := by
  induction left generalizing low high bits bs with
  | zero =>
    constructor
    · intro h
      cases h with
      | @last _ b _ h =>
        simp only [feed] at h
        split at h
        · rename_i hr
          obtain ⟨hv, hb⟩ := (comes_zero_iff hlow hhigh).mpr ⟨hr, rfl⟩
          exact ⟨_, hv, (Fed.char.inj h).symm, congrArg (fun x => [x]) hb⟩
        · cases h
      | more h hq =>
        simp only [feed] at h
        split at h <;> cases h
    · rintro ⟨v, hv, rfl, rfl⟩
      obtain ⟨hr, he⟩ := (comes_zero_iff hlow hhigh).mp ⟨hv, rfl⟩
      apply Reads.last
      simp only [feed]
      rw [if_pos hr, ← he]
  | succ left ih =>
    constructor
    · intro h
      cases h with
      | last h =>
        simp only [feed] at h
        split at h <;> cases h
      | @more _ _ b _ _ h hq =>
        simp only [feed] at h
        split at h
        · rename_i hr
          cases h
          obtain ⟨v, hv, rfl, rfl⟩ := (ih (Nat.le_refl _) (Nat.le_refl _)).mp hq
          obtain ⟨hv', hb⟩ := (comes_succ_iff hlow hhigh).mpr ⟨hr, hv⟩
          exact ⟨v, hv', rfl, by rw [hb]; rfl⟩
        · cases h
    · rintro ⟨v, hv, rfl, rfl⟩
      obtain ⟨hr, hv'⟩ := (comes_succ_iff hlow hhigh).mp ⟨hv, rfl⟩
      refine Reads.more (q := .owed left 0x80 0xBF _) ?_
        ((ih (Nat.le_refl _) (Nat.le_refl _)).mpr ⟨v, hv', rfl, rfl⟩)
      simp only [feed]
      rw [if_pos hr]

/-! ## The first byte -/

/-- The first bytes of longer characters, and what the decoder goes on with. -/
theorem lead_eq_more_iff {b left low high bits : Nat} :
    lead b = .more (.owed left low high bits) ↔
      (left = 0 ∧ 0xC2 ≤ b ∧ b < 0xE0 ∧ b = bits + 0xC0 ∧ low = 0x80 ∧ high = 0xBF) ∨
      (left = 1 ∧ 0xE0 ≤ b ∧ b < 0xF0 ∧ b = bits + 0xE0 ∧
        (b = 0xE0 ∧ low = 0xA0 ∨ b ≠ 0xE0 ∧ low = 0x80) ∧
        (b = 0xED ∧ high = 0x9F ∨ b ≠ 0xED ∧ high = 0xBF)) ∨
      (left = 2 ∧ 0xF0 ≤ b ∧ b < 0xF5 ∧ b = bits + 0xF0 ∧
        (b = 0xF0 ∧ low = 0x90 ∨ b ≠ 0xF0 ∧ low = 0x80) ∧
        (b = 0xF4 ∧ high = 0x8F ∨ b ≠ 0xF4 ∧ high = 0xBF)) := by
  unfold lead
  repeat' split
  all_goals
    simp only [Fed.more.injEq, Pending.owed.injEq, reduceCtorEq, false_iff]
    omega

/-- A decoder that has read a first byte is inside a character. -/
theorem lead_ne_idle (b : Nat) : lead b ≠ .more .idle := by
  unfold lead
  repeat' split
  all_goals simp

theorem lead_bounds {b left low high bits : Nat}
    (h : lead b = .more (.owed left low high bits)) :
    b < 256 ∧ 0x80 ≤ low ∧ low ≤ high ∧ high ≤ 0xBF := by
  rcases lead_eq_more_iff.mp h with h | h | h <;> omega

theorem lead_eq_char_iff {b : Nat} {c : Char} :
    lead b = .char c ↔ b < 0x80 ∧ c = Char.ofNat b := by
  unfold lead
  split
  · rename_i h
    simp only [Fed.char.injEq, h, true_and, eq_comm]
  · repeat' split
    all_goals
      simp only [reduceCtorEq, false_iff]
      omega

/-- The first byte of a character, and how many bytes follow it. -/
def head (v : Nat) : Nat × Nat :=
  if v ≤ 0x7FF then (v / 64 + 0xC0, 0)
  else if v ≤ 0xFFFF then (v / 4096 + 0xE0, 1)
  else (v / 262144 + 0xF0, 2)

theorem exists_either (p : Prop) (a b : Nat) : ∃ n, p ∧ n = a ∨ ¬ p ∧ n = b := by
  by_cases h : p
  · exact ⟨a, Or.inl ⟨h, rfl⟩⟩
  · exact ⟨b, Or.inr ⟨h, rfl⟩⟩

/-- **The first byte and the ranges after it** admit the code points beyond ASCII, each behind
the one first byte that belongs to it. -/
theorem lead_comes_iff {b left v : Nat} :
    (∃ low high bits, lead b = .more (.owed left low high bits) ∧ Comes left low high bits v) ↔
      v.isValidChar ∧ 0x80 ≤ v ∧ (b, left) = head v := by
  constructor
  · rintro ⟨low, high, bits, hb, hread, hlow, hhigh⟩
    unfold head Nat.isValidChar
    rcases lead_eq_more_iff.mp hb with ⟨rfl, h⟩ | ⟨rfl, h⟩ | ⟨rfl, h⟩
    · simp only [Nat.pow_zero, Nat.div_one, Nat.zero_add, Nat.pow_one] at hread hlow hhigh
      rw [if_pos (by omega)]
      exact ⟨by omega, by omega, by rw [show b = v / 64 + 0xC0 by omega]⟩
    · simp only [Nat.reduceAdd, Nat.reducePow] at hread hlow hhigh
      rw [if_neg (by omega), if_pos (by omega)]
      exact ⟨by omega, by omega, by rw [show b = v / 4096 + 0xE0 by omega]⟩
    · simp only [Nat.reduceAdd, Nat.reducePow] at hread hlow hhigh
      rw [if_neg (by omega), if_neg (by omega)]
      exact ⟨by omega, by omega, by rw [show b = v / 262144 + 0xF0 by omega]⟩
  · rintro ⟨hv, h80, hb⟩
    unfold head at hb
    unfold Nat.isValidChar at hv
    split at hb
    · cases hb
      refine ⟨0x80, 0xBF, v / 64, lead_eq_more_iff.mpr (Or.inl ?_), ⟨?_, ?_, ?_⟩⟩
      · omega
      · simp only [Nat.zero_add, Nat.pow_one]
      · omega
      · simp only [Nat.pow_zero, Nat.div_one]
        omega
    split at hb
    · cases hb
      obtain ⟨low, hlow⟩ := exists_either (v / 4096 + 0xE0 = 0xE0) 0xA0 0x80
      obtain ⟨high, hhigh⟩ := exists_either (v / 4096 + 0xE0 = 0xED) 0x9F 0xBF
      refine ⟨low, high, v / 4096, lead_eq_more_iff.mpr (Or.inr (Or.inl ?_)), ⟨rfl, ?_, ?_⟩⟩
      · omega
      · rw [Nat.pow_one]
        omega
      · rw [Nat.pow_one]
        omega
    · cases hb
      obtain ⟨low, hlow⟩ := exists_either (v / 262144 + 0xF0 = 0xF0) 0x90 0x80
      obtain ⟨high, hhigh⟩ := exists_either (v / 262144 + 0xF0 = 0xF4) 0x8F 0xBF
      refine ⟨low, high, v / 262144, lead_eq_more_iff.mpr (Or.inr (Or.inr ?_)), ⟨rfl, ?_, ?_⟩⟩
      · omega
      · rw [show 64 ^ 2 = 4096 from rfl]
        omega
      · rw [show 64 ^ 2 = 4096 from rfl]
        omega

/-! ## Characters -/

theorem toNat_ofNat {v : Nat} (h : v.isValidChar) : (Char.ofNat v).toNat = v := by
  unfold Char.ofNat
  rw [dif_pos h]
  rfl

theorem encodeChar_of_lt {c : Char} (h : c.toNat < 0x80) :
    String.utf8EncodeChar c = [UInt8.ofNat c.toNat] := by
  unfold String.utf8EncodeChar
  exact if_pos (show c.toNat ≤ 0x7F by omega)

theorem encodeChar_of_ge {c : Char} (h : 0x80 ≤ c.toNat) :
    String.utf8EncodeChar c = UInt8.ofNat (head c.toNat).1 :: trail (head c.toNat).2 c.toNat := by
  have hc : c.toNat.isValidChar := c.valid
  unfold Nat.isValidChar at hc
  have hv : c.val.toNat = c.toNat := rfl
  unfold String.utf8EncodeChar head
  simp only [hv]
  rw [if_neg (by omega)]
  split
  · have hm : c.toNat / 64 % 0x20 = c.toNat / 64 := by omega
    simp only [trail, hm]
  split
  · have hm : c.toNat / 4096 % 0x10 = c.toNat / 4096 := by omega
    simp only [trail, hm, Nat.zero_add, Nat.pow_one]
  · have hm : c.toNat / 262144 % 0x08 = c.toNat / 262144 := by omega
    simp only [trail, hm, Nat.reduceAdd, Nat.reducePow]

/-- **A decoder between two characters reads `c` from the encoding of `c`**, and from nothing
else. -/
theorem reads_idle_iff {bs : Bytes} {c : Char} :
    Reads .idle bs c ↔ bs = String.utf8EncodeChar c := by
  constructor
  · intro h
    cases h with
    | @last _ b _ h =>
      obtain ⟨hb, rfl⟩ := lead_eq_char_iff.mp h
      have hn : (Char.ofNat b.toNat).toNat = b.toNat := toNat_ofNat (Or.inl (by omega))
      rw [encodeChar_of_lt (by omega), hn, UInt8.ofNat_toNat]
    | @more _ q b bs _ h hq =>
      cases q with
      | idle => exact absurd h (lead_ne_idle _)
      | owed left low high bits =>
        obtain ⟨-, hlow, -, hhigh⟩ := lead_bounds h
        obtain ⟨v, hv, rfl, rfl⟩ := (reads_owed_iff hlow hhigh).mp hq
        obtain ⟨hvalid, h80, hhead⟩ := lead_comes_iff.mp ⟨low, high, bits, h, hv⟩
        have hn : (Char.ofNat v).toNat = v := toNat_ofNat hvalid
        rw [encodeChar_of_ge (by omega), hn, ← hhead, UInt8.ofNat_toNat]
  · rintro rfl
    by_cases h : c.toNat < 0x80
    · rw [encodeChar_of_lt h]
      apply Reads.last
      have hb : (UInt8.ofNat c.toNat).toNat = c.toNat := by
        rw [UInt8.toNat_ofNat']
        omega
      refine lead_eq_char_iff.mpr ⟨by omega, ?_⟩
      rw [hb, Char.ofNat_toNat]
    · rw [encodeChar_of_ge (by omega)]
      have hfirst : ∃ low high bits,
          lead (head c.toNat).1 = .more (.owed (head c.toNat).2 low high bits) ∧
            Comes (head c.toNat).2 low high bits c.toNat :=
        lead_comes_iff.mpr ⟨c.valid, Nat.le_of_not_lt h, rfl⟩
      obtain ⟨low, high, bits, hlead, hv⟩ := hfirst
      obtain ⟨hb, hlow, -, hhigh⟩ := lead_bounds hlead
      refine Reads.more (q := .owed (head c.toNat).2 low high bits) ?_
        ((reads_owed_iff hlow hhigh).mpr ⟨c.toNat, hv, (Char.ofNat_toNat c).symm, rfl⟩)
      show lead (UInt8.ofNat (head c.toNat).1).toNat = _
      rw [UInt8.toNat_ofNat', Nat.mod_eq_of_lt hb]
      exact hlead

/-! ## Whole texts -/

/-- A decoder that has been given a byte is inside a character, or has completed one. -/
theorem feed_ne_idle (p : Pending) (b : UInt8) : feed p b ≠ .more .idle := by
  cases p with
  | idle => exact lead_ne_idle b.toNat
  | owed left low high bits =>
    simp only [feed]
    split
    · cases left <;> nofun
    · nofun

theorem decodeFrom_of_reads {p : Pending} {cs : Bytes} {c : Char} (h : Reads p cs c) (x : Bytes) :
    decodeFrom p (cs ++ x) = (decodeFrom .idle x).map (c :: ·) := by
  induction h with
  | last hb => rw [List.singleton_append, decodeFrom, hb]
  | more hb _ ih =>
    rw [List.cons_append, decodeFrom, hb]
    exact ih

theorem decodeFrom_eq_some_nil {p : Pending} {bs : Bytes} (h : decodeFrom p bs = some []) :
    p = .idle ∧ bs = [] := by
  induction bs generalizing p with
  | nil =>
    cases p with
    | idle => exact ⟨rfl, rfl⟩
    | owed => cases h
  | cons b bs ih =>
    rw [decodeFrom] at h
    split at h
    · cases hd : decodeFrom .idle bs <;> rw [hd] at h <;> cases h
    · rename_i q hq
      obtain ⟨rfl, -⟩ := ih h
      exact absurd hq (feed_ne_idle p b)
    · cases h

theorem decodeFrom_eq_some_cons {p : Pending} {bs : Bytes} {c : Char} {cs : List Char}
    (h : decodeFrom p bs = some (c :: cs)) :
    ∃ as rest, bs = as ++ rest ∧ Reads p as c ∧ decodeFrom .idle rest = some cs := by
  induction bs generalizing p with
  | nil => cases p <;> cases h
  | cons b bs ih =>
    rw [decodeFrom] at h
    split at h
    · rename_i d hd
      obtain ⟨cs', hcs, heq⟩ := Option.map_eq_some_iff.mp h
      cases heq
      exact ⟨[b], bs, rfl, Reads.last hd, hcs⟩
    · rename_i q hq
      obtain ⟨as, rest, rfl, hr, hrest⟩ := ih h
      exact ⟨b :: as, rest, rfl, Reads.more hq hr, hrest⟩
    · cases h

theorem encode_cons (c : Char) (cs : List Char) :
    encode (c :: cs) = String.utf8EncodeChar c ++ encode cs :=
  List.flatMap_cons

/-- **A byte string has a text** iff it is the encoding of that text. -/
theorem decode?_eq_some_iff {bs : Bytes} {cs : List Char} :
    decode? bs = some cs ↔ bs = encode cs := by
  constructor
  · intro h
    induction cs generalizing bs with
    | nil => exact (decodeFrom_eq_some_nil h).2
    | cons c cs ih =>
      obtain ⟨as, rest, rfl, hr, hrest⟩ := decodeFrom_eq_some_cons h
      rw [encode_cons, reads_idle_iff.mp hr, ih hrest]
  · rintro rfl
    induction cs with
    | nil => rfl
    | cons c cs ih =>
      have hc : Reads .idle (String.utf8EncodeChar c) c := reads_idle_iff.mpr rfl
      unfold decode? at ih ⊢
      rw [encode_cons, decodeFrom_of_reads hc, ih, Option.map_some]

theorem decode?_encode (cs : List Char) : decode? (encode cs) = some cs :=
  decode?_eq_some_iff.mpr rfl

theorem lossyFrom_of_reads {p : Pending} {cs : Bytes} {c : Char} (h : Reads p cs c) (x : Bytes) :
    lossyFrom p (cs ++ x) = c :: lossyFrom .idle x := by
  induction h with
  | @last p b c hb =>
    rw [List.singleton_append]
    cases p <;> rw [lossyFrom, hb]
  | @more p q b bs c hb _ ih =>
    rw [List.cons_append]
    cases p <;> rw [lossyFrom, hb] <;> exact ih

/-- **A text is shown as it is.** -/
theorem lossyFrom_encode (cs : List Char) : lossyFrom .idle (encode cs) = cs := by
  induction cs with
  | nil => rfl
  | cons c cs ih =>
    have hc : Reads .idle (String.utf8EncodeChar c) c := reads_idle_iff.mpr rfl
    rw [encode_cons, lossyFrom_of_reads hc, ih]

theorem encode_injective {cs ds : List Char} (h : encode cs = encode ds) : cs = ds := by
  have hd : decode? (encode cs) = some ds := h ▸ decode?_encode ds
  exact Option.some.inj ((decode?_encode cs).symm.trans hd)

theorem decode?_eq_none_iff {bs : Bytes} : decode? bs = none ↔ ∀ cs, bs ≠ encode cs := by
  rw [Option.eq_none_iff_forall_ne_some]
  exact forall_congr' fun cs => not_congr decode?_eq_some_iff

end SuiteRunner.Utf8
