import SuiteRunner.Proofs.Json.Grammar

/-!
# Strings and numbers are read as the grammar has them

The reader takes a string or a number off the front of a text exactly if the text starts with a way
to write it. What a number ends in front of matters: its digits go on for as long as there are any.

* **`glyphs_body`**, **`body_of_glyphs`**: strings, in either direction;
* **`numberOf_numeral`**, **`numeral_of_numberOf`**: numbers, in either direction.
-/

namespace SuiteRunner.Json

variable {cs w rest : List Char} {gs : List Glyph} {g : Glyph}

/-! ## Strings -/

/-- What is read, with one more element in front. -/
def addGlyph (g : Glyph) (r : List Glyph × List Char) : List Glyph × List Char := (g :: r.1, r.2)

theorem glyphs_bare {c : Char} (hquote : c ≠ '"') (hslash : c ≠ '\\') (hc : 0x20 ≤ c.toNat)
    (cs : List Char) : glyphs (c :: cs) = (glyphs cs).map (addGlyph (.char c)) := by
  rw [glyphs]
  · have hplain : (decide (c.toNat < 0x20) || c == '\\') = false := by
      simp [hslash, Nat.not_lt.mpr hc]
    rw [hplain, if_neg Bool.false_ne_true]
    cases glyphs cs <;> rfl
  · exact hquote
  · exact fun _ _ _ _ _ h _ => hslash h
  · exact fun _ _ h _ => hslash h

theorem glyphs_short {e c : Char} (h : shortEscape? e = some c) (cs : List Char) :
    glyphs ('\\' :: e :: cs) = (glyphs cs).map (addGlyph (.char c)) := by
  rw [glyphs]
  · rw [h]
    cases glyphs cs <;> rfl
  · rintro a b d f cs' rfl
    cases h

theorem glyphs_unit {a b d e : Char} {n : Nat} (h : unit? a b d e = some n) (cs : List Char) :
    glyphs ('\\' :: 'u' :: a :: b :: d :: e :: cs) = (glyphs cs).map (addGlyph (.unit n)) := by
  rw [glyphs, h]
  cases glyphs cs <;> rfl

theorem glyphs_writtenAs (h : g.WrittenAs w) (rest : List Char) :
    glyphs (w ++ rest) = (glyphs rest).map (addGlyph g) := by
  cases h with
  | bare hquote hslash hc => exact glyphs_bare hquote hslash hc rest
  | short h => exact glyphs_short h rest
  | unit h => exact glyphs_unit h rest

/-- **A string is read from each of the ways to write it**, up to the closing quote. -/
theorem glyphs_body (h : Body gs w) (rest : List Char) :
    glyphs (w ++ '"' :: rest) = some (gs, rest) := by
  induction h with
  | nil => rw [List.nil_append, glyphs]
  | cons hg _ ih =>
    rw [List.append_assoc, glyphs_writtenAs hg, ih]
    rfl

/-- An element, and the rest of its string behind it. -/
theorem body_cons (hg : g.WrittenAs w) (h : (glyphs cs).map (addGlyph g) = some (gs, rest))
    (ih : ∀ {gs rest}, glyphs cs = some (gs, rest) → ∃ ws, Body gs ws ∧ cs = ws ++ '"' :: rest) :
    ∃ ws, Body gs ws ∧ w ++ cs = ws ++ '"' :: rest := by
  obtain ⟨r, hread, heq⟩ := Option.map_eq_some_iff.mp h
  obtain ⟨rfl, rfl⟩ := Prod.mk.inj heq
  obtain ⟨ws, hws, rfl⟩ := ih hread
  exact ⟨w ++ ws, .cons hg hws, (List.append_assoc w ws _).symm⟩

/-- **What is read as a string is one of the ways to write it.** -/
theorem body_of_glyphs (h : glyphs cs = some (gs, rest)) :
    ∃ w, Body gs w ∧ cs = w ++ '"' :: rest := by
  induction cs using glyphs.induct generalizing gs rest with
  | case1 cs =>
    rw [glyphs] at h
    cases h
    exact ⟨[], .nil, rfl⟩
  | case2 p q r s cs ih =>
    cases hunit : unit? p q r s with
    | none =>
      rw [glyphs, hunit] at h
      cases h
    | some n =>
      rw [glyphs_unit hunit] at h
      exact body_cons (.unit hunit) h ih
  | case3 e cs hnot ih =>
    cases hshort : shortEscape? e with
    | none =>
      rw [glyphs, hshort] at h
      · cases h
      · exact hnot
    | some c =>
      rw [glyphs_short hshort] at h
      exact body_cons (.short hshort) h ih
  | case4 c cs hquote hunit hescape hbad =>
    rw [glyphs, if_pos hbad] at h
    · cases h
    · exact hquote
    · exact hunit
    · exact hescape
  | case5 c cs hquote _ _ hplain ih =>
    simp only [Bool.or_eq_true, decide_eq_true_eq, beq_iff_eq, not_or, Nat.not_lt] at hplain
    rw [glyphs_bare hquote hplain.2 hplain.1] at h
    exact body_cons (.bare hquote hplain.2 hplain.1) h ih
  | case6 =>
    rw [glyphs] at h
    cases h

/-! ## Digits -/

theorem digits_append {ds : List Char} (hds : ∀ d ∈ ds, d.isDigit = true)
    (hrest : ∀ c ∈ rest.head?, c.isDigit = false) : digits (ds ++ rest) = (ds, rest) := by
  unfold digits
  rw [takeWhile_run hds hrest, dropWhile_run hds hrest]

/-- What is read as digits is digits, if it is anything. -/
theorem areDigits_of_digits {ds : List Char} (h : digits cs = (ds, rest)) (hne : ds ≠ []) :
    AreDigits ds ∧ cs = ds ++ rest := by
  obtain ⟨rfl, rfl⟩ := Prod.mk.inj h
  exact ⟨⟨hne, List.all_eq_true.mp List.all_takeWhile⟩, List.takeWhile_append_dropWhile.symm⟩

theorem wholePart_toDigits (n : Nat) (hrest : ∀ c ∈ rest.head?, c.isDigit = false) :
    wholePart (Nat.toDigits 10 n ++ rest) = some (n, rest) := by
  have hdigits : digits (Nat.toDigits 10 n ++ rest) = (Nat.toDigits 10 n, rest) :=
    digits_append (fun d hd => Nat.isDigit_of_mem_toDigits (by decide) (by decide) hd) hrest
  unfold wholePart
  rw [hdigits]
  split
  · rename_i h
    exact absurd (Prod.mk.inj h).1 Nat.toDigits_ne_nil
  · rename_i h
    cases eq_nil_of_toDigits (Prod.mk.inj h).1
  · rename_i h
    obtain ⟨rfl, rfl⟩ := Prod.mk.inj h
    rw [ofDigits?_toDigits (by decide) (by decide)]
    rfl

theorem toDigits_of_wholePart {n : Nat} (h : wholePart cs = some (n, rest)) :
    cs = Nat.toDigits 10 n ++ rest := by
  unfold wholePart at h
  split at h
  · cases h
  · cases h
  · rename_i ds _ hne hzero hdigits
    obtain ⟨m, hm, heq⟩ := Option.map_eq_some_iff.mp h
    obtain ⟨rfl, rfl⟩ := Prod.mk.inj heq
    rw [toDigits_of_ofDigits? hm hne]
    · exact (areDigits_of_digits hdigits hne).2
    · intro front hfront
      cases front with
      | nil => rfl
      | cons c front => exact absurd hfront (hzero c front)

/-! ## Fractions and exponents -/

theorem fraction_append {point : Bool} (h : Fraction point w)
    (hrest : ∀ c ∈ rest.head?, c.isDigit = false ∧ c ≠ '.') :
    fraction (w ++ rest) = some (point, rest) := by
  cases h with
  | none =>
    rw [List.nil_append, fraction]
    rintro cs rfl
    exact (hrest '.' rfl).2 rfl
  | @point ds h =>
    obtain ⟨d, ds, rfl⟩ := List.exists_cons_of_ne_nil h.ne_nil
    rw [List.cons_append, fraction, digits_append h.isDigit fun c hc => (hrest c hc).1]

theorem fraction_of_eq_some {point : Bool} (h : fraction cs = some (point, rest)) :
    ∃ w, Fraction point w ∧ cs = w ++ rest := by
  unfold fraction at h
  split at h
  · split at h
    · cases h
    · rename_i hne hdigits
      cases h
      obtain ⟨hds, rfl⟩ := areDigits_of_digits hdigits hne
      exact ⟨_, .point hds, rfl⟩
  · cases h
    exact ⟨[], .none, rfl⟩

/-- The sign of an exponent is dropped, if there is one. -/
theorem dropSign_append {sign ds : List Char} (hsign : sign = [] ∨ sign = ['+'] ∨ sign = ['-'])
    (hds : AreDigits ds) (rest : List Char) : dropSign (sign ++ (ds ++ rest)) = ds ++ rest := by
  rcases hsign with rfl | rfl | rfl
  · obtain ⟨d, ds, rfl⟩ := List.exists_cons_of_ne_nil hds.ne_nil
    have hd := hds.isDigit d List.mem_cons_self
    rw [List.nil_append, List.cons_append, dropSign]
    · exact fun _ h => ne_of_test hd rfl (List.cons.inj h).1
    · exact fun _ h => ne_of_test hd rfl (List.cons.inj h).1
  · rfl
  · rfl

/-- What is left once the sign is dropped, with the sign in front. -/
theorem exists_sign (cs : List Char) :
    ∃ sign, (sign = [] ∨ sign = ['+'] ∨ sign = ['-']) ∧ cs = sign ++ dropSign cs := by
  unfold dropSign
  split
  · exact ⟨['+'], Or.inr (Or.inl rfl), rfl⟩
  · exact ⟨['-'], Or.inr (Or.inr rfl), rfl⟩
  · exact ⟨[], Or.inl rfl, rfl⟩

theorem exponent_append {power : Bool} (h : Exponent power w)
    (hrest : ∀ c ∈ rest.head?, c.isDigit = false ∧ c ≠ 'e' ∧ c ≠ 'E') :
    exponent (w ++ rest) = some (power, rest) := by
  cases h with
  | none =>
    rw [List.nil_append, exponent]
    · rintro cs rfl
      exact (hrest 'e' rfl).2.1 rfl
    · rintro cs rfl
      exact (hrest 'E' rfl).2.2 rfl
  | @power e sign ds he hsign h =>
    have hdigits : digits (dropSign (sign ++ (ds ++ rest))) = (ds, rest) := by
      rw [dropSign_append hsign h]
      exact digits_append h.isDigit fun c hc => (hrest c hc).1
    obtain ⟨d, ds, rfl⟩ := List.exists_cons_of_ne_nil h.ne_nil
    rw [List.cons_append, List.append_assoc]
    rcases he with rfl | rfl <;> rw [exponent, hdigits]

theorem exponent_of_digits {e : Char} {ds : List Char} (he : e = 'e' ∨ e = 'E')
    (h : digits (dropSign cs) = (ds, rest)) (hne : ds ≠ []) :
    ∃ w, Exponent true w ∧ e :: cs = w ++ rest := by
  obtain ⟨sign, hsign, hcs⟩ := exists_sign cs
  obtain ⟨hds, hrest⟩ := areDigits_of_digits h hne
  refine ⟨_, .power he hsign hds, ?_⟩
  rw [hcs, hrest, List.cons_append, List.append_assoc]

theorem exponent_of_eq_some {power : Bool} (h : exponent cs = some (power, rest)) :
    ∃ w, Exponent power w ∧ cs = w ++ rest := by
  unfold exponent at h
  split at h
  · split at h
    · cases h
    · rename_i hne hdigits
      cases h
      exact exponent_of_digits (Or.inl rfl) hdigits hne
  · split at h
    · cases h
    · rename_i hne hdigits
      cases h
      exact exponent_of_digits (Or.inr rfl) hdigits hne
  · cases h
    exact ⟨[], .none, rfl⟩

/-! ## Numbers -/

/-- The characters that a value may stand in front of. -/
def closers : List Char := [' ', '\n', '\t', '\r', ',', ']', '\x7d']

/-- A value may stand in front of this text. -/
def Ends (cs : List Char) : Prop := ∀ c ∈ cs.head?, c ∈ closers

theorem not_numeral_of_mem_closers :
    ∀ c ∈ closers, c.isDigit = false ∧ c ≠ '.' ∧ c ≠ 'e' ∧ c ≠ 'E' := by
  simp [closers]

/-- Behind the whole part of a number there is no digit, and behind its fraction no point. -/
theorem Exponent.head?_append {power : Bool} (h : Exponent power w) (hrest : Ends rest) :
    ∀ c ∈ (w ++ rest).head?, c.isDigit = false ∧ c ≠ '.' := by
  cases h with
  | none =>
    intro c hc
    obtain ⟨hdigit, hpoint, -⟩ := not_numeral_of_mem_closers c (hrest c hc)
    exact ⟨hdigit, hpoint⟩
  | power he =>
    rintro c ⟨⟩
    rcases he with rfl | rfl <;> decide

theorem Fraction.head?_append {point : Bool} (h : Fraction point w)
    (hrest : ∀ c ∈ rest.head?, c.isDigit = false) :
    ∀ c ∈ (w ++ rest).head?, c.isDigit = false := by
  cases h with
  | none => exact hrest
  | point =>
    rintro c ⟨⟩
    rfl

theorem magnitude_append (negative : Bool) (n : Nat) {point power : Bool} {f e : List Char}
    (hf : Fraction point f) (he : Exponent power e) (hrest : Ends rest) :
    magnitude negative (Nat.toDigits 10 n ++ (f ++ (e ++ rest))) =
      some (⟨negative, n, !point && !power⟩, rest) := by
  have hbehind := he.head?_append hrest
  have hwhole : wholePart (Nat.toDigits 10 n ++ (f ++ (e ++ rest))) = some (n, f ++ (e ++ rest)) :=
    wholePart_toDigits n (hf.head?_append fun c hc => (hbehind c hc).1)
  have hexponent : exponent (e ++ rest) = some (power, rest) := by
    refine exponent_append he fun c hc => ?_
    obtain ⟨hdigit, -, he, hE⟩ := not_numeral_of_mem_closers c (hrest c hc)
    exact ⟨hdigit, he, hE⟩
  unfold magnitude
  simp only [hwhole, fraction_append hf hbehind, hexponent, Option.bind_eq_bind, Option.bind_some]

theorem magnitude_of_eq_some {negative : Bool} {k : Number}
    (h : magnitude negative cs = some (k, rest)) :
    ∃ w, Numeral k (signText negative ++ w) ∧ cs = w ++ rest := by
  unfold magnitude at h
  obtain ⟨⟨n, cs₁⟩, hwhole, h⟩ := Option.bind_eq_some_iff.mp h
  obtain ⟨⟨point, cs₂⟩, hfraction, h⟩ := Option.bind_eq_some_iff.mp h
  obtain ⟨⟨power, cs₃⟩, hexponent, h⟩ := Option.bind_eq_some_iff.mp h
  cases h
  obtain rfl := toDigits_of_wholePart hwhole
  obtain ⟨f, hf, rfl⟩ := fraction_of_eq_some hfraction
  obtain ⟨e, he, rfl⟩ := exponent_of_eq_some hexponent
  exact ⟨_, .parts hf he, by simp⟩

theorem exists_digit (n : Nat) :
    ∃ d ds, Nat.toDigits 10 n = d :: ds ∧ d.isDigit = true := by
  obtain ⟨d, ds, hds⟩ := List.exists_cons_of_ne_nil (Nat.toDigits_ne_nil : Nat.toDigits 10 n ≠ [])
  have hmem : d ∈ Nat.toDigits 10 n := hds ▸ List.mem_cons_self
  exact ⟨d, ds, hds, Nat.isDigit_of_mem_toDigits (by decide) (by decide) hmem⟩

/-- A number starts with a digit, or with its sign. -/
theorem Numeral.exists_head {k : Number} (h : Numeral k w) :
    ∃ c t, w = c :: t ∧ (c = '-' ∨ c.isDigit = true) := by
  cases h with
  | @parts negative _ _ n =>
    obtain ⟨d, ds, hds, hd⟩ := exists_digit n
    rw [hds]
    cases negative with
    | false => exact ⟨d, _, rfl, Or.inr hd⟩
    | true => exact ⟨'-', _, rfl, Or.inl rfl⟩

/-- **A number is read from each of the ways to write it.** -/
theorem numberOf_numeral {k : Number} (h : Numeral k w) (hrest : Ends rest) :
    numberOf (w ++ rest) = some (k, rest) := by
  cases h with
  | @parts negative _ _ n f e hf he =>
    rw [List.append_assoc, List.append_assoc, List.append_assoc]
    cases negative with
    | true => exact magnitude_append true n hf he hrest
    | false =>
      have hread := magnitude_append false n hf he hrest
      obtain ⟨d, ds, hds, hd⟩ := exists_digit n
      rw [hds] at hread ⊢
      show numberOf (d :: _) = _
      rw [numberOf]
      · exact hread
      · exact fun _ h => ne_of_test hd rfl (List.cons.inj h).1

/-- **What is read as a number is one of the ways to write it.** -/
theorem numeral_of_numberOf {k : Number} (h : numberOf cs = some (k, rest)) :
    ∃ w, Numeral k w ∧ cs = w ++ rest := by
  unfold numberOf at h
  split at h
  · obtain ⟨w, hw, rfl⟩ := magnitude_of_eq_some h
    exact ⟨_, hw, rfl⟩
  · obtain ⟨w, hw, rfl⟩ := magnitude_of_eq_some h
    exact ⟨_, hw, rfl⟩

end SuiteRunner.Json
