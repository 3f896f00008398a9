import SuiteRunner.Proofs.Text.Utf8

/-!
# The start of a character

A byte string may end in the middle of a character. The decoder tells that from bytes that are no
character at all, and it is right about it, whatever the bytes are.

* `Sound.exists_reads`: a decoder that waits for more can be given it;
* **`leads_idle_iff`**: it waits for more behind exactly the byte strings that a longer encoding of
  a character starts with;
* **`refused_iff`**: it refuses exactly the byte strings that start with no encoding and that no
  encoding starts with. So a byte is refused only if it is the first that rules a text out.
-/

namespace SuiteRunner.Utf8

/-! ## States that are reached -/

/-- A state that some byte continues. -/
inductive Sound : Pending → Prop
  | idle : Sound .idle
  | owed {left low high bits : Nat} (hlow : 0x80 ≤ low) (hle : low ≤ high) (hhigh : high ≤ 0xBF) :
      Sound (.owed left low high bits)

theorem Sound.feed {p q : Pending} {b : UInt8} (hp : Sound p) (h : feed p b = .more q) :
    Sound q := by
  cases hp with
  | idle =>
    cases q with
    | idle => exact Sound.idle
    | owed left low high bits =>
      obtain ⟨-, hlow, hle, hhigh⟩ := lead_bounds h
      exact Sound.owed hlow hle hhigh
  | @owed left low high bits hlow hle hhigh =>
    simp only [Utf8.feed] at h
    split at h
    · cases left with
      | zero => cases h
      | succ left =>
        cases h
        exact Sound.owed (Nat.le_refl _) (by decide) (Nat.le_refl _)
    · cases h

theorem Sound.leads {p q : Pending} {bs : Bytes} (hp : Sound p) (h : Leads p bs q) : Sound q := by
  induction h with
  | nil => exact hp
  | cons hb _ ih => exact ih (hp.feed hb)

/-- A character can be completed by the least byte that it may go on with, each time. -/
theorem exists_reads_owed {left low high : Nat} (hlow : 0x80 ≤ low) (hle : low ≤ high)
    (hhigh : high ≤ 0xBF) (bits : Nat) : ∃ bs c, Reads (.owed left low high bits) bs c := by
  induction left generalizing low high bits with
  | zero =>
    have hb : (UInt8.ofNat low).toNat = low := UInt8.toNat_ofNat_of_lt' (show low < 256 by omega)
    refine ⟨[UInt8.ofNat low], Char.ofNat (bits * 64 + (low - 0x80)), Reads.last ?_⟩
    simp only [Utf8.feed, hb]
    exact if_pos ⟨Nat.le_refl _, hle⟩
  | succ left ih =>
    have hb : (UInt8.ofNat low).toNat = low := UInt8.toNat_ofNat_of_lt' (show low < 256 by omega)
    obtain ⟨bs, c, h⟩ := ih (Nat.le_refl 0x80) (show 0x80 ≤ 0xBF by decide) (Nat.le_refl _)
      (bits * 64 + (low - 0x80))
    refine ⟨UInt8.ofNat low :: bs, c, Reads.more ?_ h⟩
    simp only [Utf8.feed, hb]
    exact if_pos ⟨Nat.le_refl _, hle⟩

/-- **A decoder that waits for more can be given it.** -/
theorem Sound.exists_reads {p : Pending} (hp : Sound p) : ∃ bs c, Reads p bs c := by
  cases hp with
  | idle => exact ⟨_, 'a', reads_idle_iff.mpr rfl⟩
  | @owed left low high bits hlow hle hhigh => exact exists_reads_owed hlow hle hhigh bits

/-! ## One byte string, one result -/

variable {p q r : Pending} {as bs : Bytes} {c : Char}

theorem Reads.ne_nil (h : Reads p bs c) : bs ≠ [] := by
  cases h <;> exact List.cons_ne_nil _ _

theorem Leads.append_reads (h : Leads p as q) (hq : Reads q bs c) : Reads p (as ++ bs) c := by
  induction h with
  | nil => exact hq
  | cons hb _ ih => exact Reads.more hb (ih hq)

/-- The bytes of a character lead to where the last of them are read. -/
theorem Reads.leads_of_append (h : Reads p (as ++ bs) c) (hbs : bs ≠ []) :
    ∃ q, Leads p as q := by
  induction as generalizing p with
  | nil => exact ⟨p, Leads.nil p⟩
  | cons a as ih =>
    rw [List.cons_append] at h
    generalize hx : as ++ bs = x at h
    cases h with
    | last hb => exact absurd (List.append_eq_nil_iff.mp hx).2 hbs
    | more hb hq =>
      subst hx
      obtain ⟨q, h⟩ := ih hq
      exact ⟨q, Leads.cons hb h⟩

/-- Behind a refused byte no character is read, and none before it. -/
theorem Leads.not_reads {b : UInt8} (h : Leads p as q) (hb : feed q b = .refused) {x rest : Bytes}
    (hx : bs ++ x = as ++ b :: rest) : ¬ Reads p bs c := by
  induction h generalizing bs with
  | nil p =>
    intro hr
    cases hr with
    | last h =>
      cases hx
      rw [hb] at h
      cases h
    | more h _ =>
      cases hx
      rw [hb] at h
      cases h
  | cons h _ ih =>
    intro hr
    cases hr with
    | last h' =>
      cases hx
      rw [h] at h'
      cases h'
    | more h' hq =>
      obtain ⟨rfl, htail⟩ := List.cons.inj hx
      rw [h] at h'
      cases h'
      exact ih hb htail hq

/-! ## In terms of encodings -/

/-- **A decoder waits for more** behind exactly the starts of longer encodings. -/
theorem leads_idle_iff {bs : Bytes} :
    (∃ q, Leads .idle bs q) ↔
      ∃ c, bs <+: String.utf8EncodeChar c ∧ bs ≠ String.utf8EncodeChar c := by
  constructor
  · rintro ⟨q, hq⟩
    obtain ⟨cs, c, hc⟩ := (Sound.idle.leads hq).exists_reads
    have heq : bs ++ cs = String.utf8EncodeChar c := reads_idle_iff.mp (hq.append_reads hc)
    refine ⟨c, ⟨cs, heq⟩, ?_⟩
    rw [← heq]
    exact fun h => hc.ne_nil (List.self_eq_append_right.mp h)
  · rintro ⟨c, ⟨cs, heq⟩, hne⟩
    have hcs : cs ≠ [] := by
      rintro rfl
      rw [List.append_nil] at heq
      exact hne heq
    exact Reads.leads_of_append (reads_idle_iff.mpr heq) hcs

/-- The bytes start with no encoding of a character, and no encoding starts with them. -/
def Undecodable (bs : Bytes) : Prop :=
  ∀ c, ¬ String.utf8EncodeChar c <+: bs ∧ ¬ bs <+: String.utf8EncodeChar c

/-- **A decoder refuses** exactly the bytes that are no text and the start of none. -/
theorem refused_iff {bs : Bytes} :
    (∃ cs rest b q, bs = cs ++ b :: rest ∧ Leads .idle cs q ∧ feed q b = .refused) ↔
      Undecodable bs := by
  constructor
  · rintro ⟨cs, rest, b, q, rfl, hq, hb⟩ c
    constructor
    · rintro ⟨x, hx⟩
      exact hq.not_reads hb hx (reads_idle_iff.mpr rfl)
    · rintro ⟨x, hx⟩
      have hc : String.utf8EncodeChar c ++ [] = cs ++ b :: (rest ++ x) := by
        rw [List.append_nil, ← hx, List.append_assoc, List.cons_append]
      exact hq.not_reads hb hc (reads_idle_iff.mpr rfl)
  · intro h
    rcases reads_or_leads_or_refused .idle bs with ⟨cs, rest, c, rfl, hr⟩ | hq | hb
    · rw [reads_idle_iff.mp hr] at h
      exact absurd (List.prefix_append _ _) (h c).1
    · obtain ⟨c, hc, -⟩ := leads_idle_iff.mp hq
      exact absurd hc (h c).2
    · exact hb

end SuiteRunner.Utf8
