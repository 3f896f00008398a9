import SuiteRunner.Toml.Text

/-!
# Strings in double quotes

`Quoted cs w` says that `w` is a way to write the text `cs` in double quotes: a quote, a backslash
and a control character by an escape, any other character as it is or by an escape too.

**`stringOf_quoted`**: each of the ways is read as the text, whatever comes after it but a quote.
-/

namespace SuiteRunner.Toml

/-- The characters with a short escape, and the letter of it. -/
def shortEscapes : List (Char × Char) :=
  [('\x08', 'b'), ('\t', 't'), ('\n', 'n'), ('\x0c', 'f'), ('\r', 'r'), ('"', '"'), ('\\', '\\')]

/-- `c` may stand in a string as it is: it is no quote, no backslash, and no control character but
the tab. -/
def IsBare (c : Char) : Prop :=
  c ≠ '"' ∧ c ≠ '\\' ∧ (c = '\t' ∨ (0x20 ≤ c.toNat ∧ c.toNat ≠ 0x7F))

instance (c : Char) : Decidable (IsBare c) :=
  inferInstanceAs (Decidable (_ ∧ _ ∧ _))

/-- The ways to write a character. -/
inductive WrittenAs (c : Char) : List Char → Prop
  | bare (h : IsBare c) : WrittenAs c [c]
  | short {letter : Char} (h : (c, letter) ∈ shortEscapes) : WrittenAs c ['\\', letter]
  /-- Four hexadecimal digits that name the code point. -/
  | four {p q r s : Char} (h : ofDigits? 16 [p, q, r, s] = some c.toNat) :
      WrittenAs c ['\\', 'u', p, q, r, s]
  /-- Eight of them. -/
  | eight {p q r s t u v w : Char} (h : ofDigits? 16 [p, q, r, s, t, u, v, w] = some c.toNat) :
      WrittenAs c ['\\', 'U', p, q, r, s, t, u, v, w]

/-- The ways to write a text, between its quotes. -/
inductive Body : List Char → List Char → Prop
  | nil : Body [] []
  | cons {c : Char} {cs w ws : List Char} (hc : WrittenAs c w) (hcs : Body cs ws) :
      Body (c :: cs) (w ++ ws)

/-- `w` is a way to write the text `cs`, in its quotes. -/
def Quoted (cs w : List Char) : Prop := ∃ body, Body cs body ∧ w = '"' :: body ++ ['"']

/-! ## Reading -/

variable {c : Char} {cs w : List Char}

theorem isPlain_of_isBare (h : IsBare c) : isPlain c = true := by
  obtain ⟨-, -, rfl | ⟨hlow, hdel⟩⟩ := h
  · rfl
  · simp [isPlain, hlow, hdel]

theorem shortEscape?_of_mem {letter : Char} (h : (c, letter) ∈ shortEscapes) :
    shortEscape? letter = some c := by
  have hall : ∀ x ∈ shortEscapes, shortEscape? x.2 = some x.1 := by decide
  exact hall _ h

theorem scalar?_of_toNat {ds : List Char} (h : ofDigits? 16 ds = some c.toNat) :
    scalar? ds = some c := by
  have hvalid : c.toNat < 0xD800 ∨ (0xE000 ≤ c.toNat ∧ c.toNat < 0x110000) := by
    rcases c.valid with h | h
    · exact Or.inl h
    · exact Or.inr ⟨by have := h.1; show 0xE000 ≤ c.val.toNat; omega, h.2⟩
  unfold scalar?
  rw [h]
  show (if _ then some (Char.ofNat c.toNat) else none) = some c
  rw [if_pos hvalid, Char.ofNat_toNat]

/-- **A character is read from each of the ways it is written.** -/
theorem basic_writtenAs (h : WrittenAs c w) (rest : List Char) :
    basic (w ++ rest) = (basic rest).map fun r => (c :: r.1, r.2) := by
  cases h with
  | bare h =>
    have hplain : (isPlain c && c != '\\') = true := by
      simp [isPlain_of_isBare h, h.2.1]
    rw [List.singleton_append, basic, if_pos hplain]
    · exact h.1
    · exact fun _ _ _ _ _ hc _ => h.2.1 hc
    · exact fun _ _ _ _ _ _ _ _ _ hc _ => h.2.1 hc
    · exact fun _ _ hc _ => h.2.1 hc
  | short h =>
    have hletter := shortEscape?_of_mem h
    rw [List.cons_append, List.singleton_append, basic, hletter]
    · cases basic rest <;> rfl
    · rintro _ _ _ _ _ rfl
      cases hletter
    · rintro _ _ _ _ _ _ _ _ _ rfl
      cases hletter
  | four h =>
    simp only [List.cons_append, List.nil_append]
    rw [basic, scalar?_of_toNat h]
    cases basic rest <;> rfl
  | eight h =>
    simp only [List.cons_append, List.nil_append]
    rw [basic, scalar?_of_toNat h]
    cases basic rest <;> rfl

/-- **A text is read from each of the ways it is written**, up to the closing quote. -/
theorem basic_body (h : Body cs w) (rest : List Char) :
    basic (w ++ '"' :: rest) = some (cs, rest) := by
  induction h with
  | nil => rw [List.nil_append, basic]
  | cons hc _ ih =>
    rw [List.append_assoc, basic_writtenAs hc, ih]
    rfl

/-- A character is not written with a quote in front. -/
theorem head?_writtenAs (h : WrittenAs c w) (rest : List Char) : (w ++ rest).head? ≠ some '"' := by
  cases h with
  | bare h => exact fun hc => h.1 (Option.some.inj hc)
  | _ => exact fun hc => absurd (Option.some.inj hc) (by decide)

/-- **A quoted text is read**, whatever comes after it but a quote. -/
theorem stringOf_quoted (h : Quoted cs w) {rest : List Char} (hrest : rest.head? ≠ some '"') :
    stringOf (w ++ rest) = some (cs, rest) := by
  obtain ⟨body, hbody, rfl⟩ := h
  have happend : '"' :: body ++ ['"'] ++ rest = '"' :: (body ++ '"' :: rest) := by simp
  rw [happend, stringOf]
  · exact basic_body hbody rest
  · -- no two quotes stand behind the first one
    intro more hmore
    cases hbody with
    | nil =>
      have hquote : '"' :: rest = '"' :: '"' :: more := hmore
      exact hrest ((List.cons.inj hquote).2 ▸ rfl)
    | cons hc _ =>
      rw [List.append_assoc] at hmore
      exact head?_writtenAs hc _ (congrArg List.head? hmore)

end SuiteRunner.Toml
