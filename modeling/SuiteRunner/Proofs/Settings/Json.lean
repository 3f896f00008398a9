import Mathlib
import SuiteRunner.Proofs.Settings.Members
import SuiteRunner.Proofs.Text.Utf8

/-!
# Settings are read from the JSON that they are written as

The writer escapes what may not stand bare in a string, one character at a time. What it writes is a
text of an object that gives each of the settings once, and so is read as those settings.

* `escape_writtenAs`: the escape of a character is a way to write it;
* `members_write`: members with commas between them are the members of an object;
* **`json_reads_back`**: settings have a JSON iff their paths are texts, and are read from it.
-/

namespace SuiteRunner

namespace Json

/-- The glyph `g` denotes `c`, whatever comes after it. -/
def Denotes (g : Glyph) (c : Char) : Prop :=
  ∀ gs, textOf (g :: gs) = (textOf gs).map (c :: ·)

theorem denotes_char (c : Char) : Denotes (.char c) c := fun _ => rfl

/-- A unit that is no half of a surrogate pair denotes the character with its number. -/
theorem denotes_unit {n : Nat} (hhigh : isHigh n = false) (hlow : isLow n = false) :
    Denotes (.unit n) (Char.ofNat n) := by
  intro gs
  match gs with
  | [] | .char c :: gs => simp [textOf, hhigh, hlow]
  | .unit m :: gs => simp [textOf, hhigh, hlow]

end Json

namespace Settings

open Json (Glyph Denotes textOf)

variable {s : Settings}

/-! ## Strings -/

theorem unit?_hexDigit : ∀ n < 0x20,
    Json.unit? '0' '0' (hexDigit (n / 16)) (hexDigit (n % 16)) = some n := by
  decide

/-- **The escape of a character is a way to write it.** -/
theorem escape_writtenAs (c : Char) : ∃ g, Denotes g c ∧ g.WrittenAs (escape c) := by
  unfold escape
  iterate 7
    split
    · subst_vars
      exact ⟨_, Json.denotes_char _, .short rfl⟩
  split
  · rename_i hc
    refine ⟨.unit c.toNat, ?_, .unit (unit?_hexDigit c.toNat hc)⟩
    have hsmall : Json.isHigh c.toNat = false ∧ Json.isLow c.toNat = false := by
      simp only [Json.isHigh, Json.isLow, Bool.and_eq_false_iff, decide_eq_false_iff_not]
      omega
    have h := Json.denotes_unit hsmall.1 hsmall.2
    rwa [Char.ofNat_toNat] at h
  · rename_i hquote hslash _ _ _ _ _ hc
    exact ⟨_, Json.denotes_char c, .bare hquote hslash (Nat.le_of_not_lt hc)⟩

theorem body_escape (cs : List Char) :
    ∃ gs, textOf gs = some cs ∧ Json.Body gs (cs.flatMap escape) := by
  induction cs with
  | nil => exact ⟨[], rfl, .nil⟩
  | cons c cs ih =>
    obtain ⟨gs, htext, hgs⟩ := ih
    obtain ⟨g, hg, hwritten⟩ := escape_writtenAs c
    refine ⟨g :: gs, ?_, .cons hwritten hgs⟩
    rw [hg, htext]
    rfl

theorem bare_quote (cs : List Char) :
    ∃ gs, textOf gs = some cs ∧ Json.Bare (.string gs) (quote cs) := by
  obtain ⟨gs, htext, hgs⟩ := body_escape cs
  exact ⟨gs, htext, .string hgs⟩

/-! ## Members -/

/-- A setting that is given by a member, as it is written and as it is read. -/
structure Member where
  /-- The setting. -/
  setting : Setting
  /-- Its value as written. -/
  text : List Char
  /-- The member as read. -/
  read : List Glyph × Json
  written : Json.Member read (member setting.name text)
  named : IsNamed setting.name read
  isValue : IsValue setting read.2

namespace Member

/-- A text of a value of a setting makes a member. -/
theorem exists_of_value {x : Setting} {j : Json} {text : List Char} (hj : Json.Bare j text)
    (hx : IsValue x j) : ∃ m : Member, m.setting = x ∧ m.text = text := by
  obtain ⟨gs, hname, hgs⟩ := body_escape x.name.text.toList
  have hmember : Json.Member (gs, j) (member x.name text) := by
    have h := Json.Member.named Json.space_nil hgs Json.space_nil hj.text
    simpa [member, quote] using h
  exact ⟨⟨x, text, (gs, j), hmember, hname, hx⟩, rfl, rfl⟩

/-- The members with commas between them. -/
def write (ms : List Member) : List Char :=
  List.intercalate [','] (ms.map fun m => member m.setting.name m.text)

/-- **Members with commas between them are the members of an object.** -/
theorem members_write (m : Member) (ms : List Member) :
    Json.Members ((m :: ms).map read) (write (m :: ms)) := by
  induction ms generalizing m with
  | nil =>
    have hwrite : write [m] = member m.setting.name m.text := by
      simp [write, List.intercalate]
    rw [hwrite]
    exact .last m.written
  | cons m' ms ih =>
    have hwrite : write (m :: m' :: ms) =
        member m.setting.name m.text ++ ',' :: write (m' :: ms) := by
      simp [write, List.intercalate]
    rw [hwrite]
    exact .more m.written (ih m')

theorem gives_read (ms : List Member) : Gives (ms.map read) (ms.map setting) := by
  induction ms with
  | nil => exact .nil
  | cons m ms ih => exact .given m.named m.isValue ih

end Member

/-! ## Settings -/

/-- **Settings are read from their own JSON**, which they have if their paths are texts. -/
theorem ofJsonText?_of_texts {suite exe : List Char} (hsuite : s.suiteDir.bytes = Utf8.encode suite)
    (hexe : s.executable.bytes = Utf8.encode exe) :
    ∃ text, s.toJson? = some text ∧ ofJsonText? text = some s := by
  obtain ⟨gs₁, htext₁, hbare₁⟩ := bare_quote suite
  obtain ⟨gs₂, htext₂, hbare₂⟩ := bare_quote exe
  obtain ⟨gs₃, htext₃, hbare₃⟩ := bare_quote s.extension.toList
  obtain ⟨m₁, hm₁, ht₁⟩ := Member.exists_of_value hbare₁ (.suiteDir htext₁)
  obtain ⟨m₂, hm₂, ht₂⟩ := Member.exists_of_value hbare₂ (.executable htext₂)
  obtain ⟨m₃, hm₃, ht₃⟩ := Member.exists_of_value hbare₃ (.extension htext₃)
  obtain ⟨m₄, hm₄, ht₄⟩ := Member.exists_of_value (.number (Json.numeral_integer_iff.mpr rfl))
    (.timeoutMs s.timeoutMs)
  have hsettings : [m₁, m₂, m₃, m₄].map Member.setting =
      SettingName.all.map s.get := by
    simp only [List.map_cons, List.map_nil, hm₁, hm₂, hm₃, hm₄, ← hsuite, ← hexe,
      String.ofList_toList]
    rfl
  have hwrite : s.toJson? = some ('\x7b' :: (Member.write [m₁, m₂, m₃, m₄] ++ ['\x7d'])) := by
    unfold toJson? Member.write
    rw [hsuite, hexe, Utf8.decode?_encode, Utf8.decode?_encode]
    simp only [List.map_cons, hm₁, ht₁, hm₂, ht₂, hm₃, ht₃, hm₄, ht₄]
    rfl
  have hobject : Json.Bare (.object _) _ := .object (Member.members_write m₁ [m₂, m₃, m₄])
  refine ⟨_, hwrite, ?_⟩
  rw [ofJsonText?_object hobject.text]
  refine ofMembers?_eq_some_iff.mpr ⟨_, Member.gives_read [m₁, m₂, m₃, m₄], ?_,
    fun _ _ => List.not_mem_nil, ?_⟩
  · rw [hsettings]
    exact (by decide : SettingName.all.Nodup)
  · rw [hsettings]
    rfl

theorem toJson?_eq_none_iff :
    s.toJson? = none ↔ (∀ cs, s.suiteDir.bytes ≠ Utf8.encode cs) ∨
      ∀ cs, s.executable.bytes ≠ Utf8.encode cs := by
  rw [← Utf8.decode?_eq_none_iff, ← Utf8.decode?_eq_none_iff]
  unfold toJson?
  cases Utf8.decode? s.suiteDir.bytes <;> cases Utf8.decode? s.executable.bytes <;> simp

theorem ofJsonText?_of_toJson? {text : List Char} (h : s.toJson? = some text) :
    ofJsonText? text = some s := by
  have hsome : ¬ s.toJson? = none := by simp [h]
  simp only [toJson?_eq_none_iff, not_or, ne_eq, Classical.not_forall, Classical.not_not] at hsome
  obtain ⟨⟨suite, hsuite⟩, exe, hexe⟩ := hsome
  obtain ⟨text', htext', hread⟩ := ofJsonText?_of_texts hsuite hexe
  rw [← Option.some.inj (htext'.symm.trans h)]
  exact hread

/-- **The JSON of settings.** Settings have none exactly if one of their paths is no text. If they
have one, they are read from it, with the same bytes, characters and number as before, and so no
other settings have it. -/
theorem json_reads_back (s : Settings) :
    (s.toJson? = none ↔ (∀ cs, s.suiteDir.bytes ≠ Utf8.encode cs) ∨
      ∀ cs, s.executable.bytes ≠ Utf8.encode cs) ∧
    ∀ text, s.toJson? = some text →
      ofJsonText? text = some s ∧ ∀ s' : Settings, s'.toJson? = some text → s' = s := by
  refine ⟨toJson?_eq_none_iff, fun text h => ⟨ofJsonText?_of_toJson? h, fun s' h' => ?_⟩⟩
  exact Option.some.inj ((ofJsonText?_of_toJson? h').symm.trans (ofJsonText?_of_toJson? h))

/-- Settings with a quote, a backslash, a zero byte and a character beyond the first plane in
them, the largest budget, and an empty suffix. -/
def oddSettings : Settings where
  suiteDir := Path.ofString "\"\\"
  executable := Path.ofString "\x00😀"
  extension := ""
  timeoutMs := 18446744073709551615

/-- They have a JSON and are read from it; with a path that is no text they have none. -/
theorem json_reads_back_odd :
    (∃ text, oddSettings.toJson? = some text ∧ ofJsonText? text = some oddSettings ∧
      ∀ s', s'.toJson? = some text → s' = oddSettings) ∧
    ({ oddSettings with suiteDir := ⟨[0xFF]⟩ } : Settings).toJson? = none := by
  constructor
  · have hsome : ∃ text, oddSettings.toJson? = some text :=
      Option.isSome_iff_exists.mp (by cbv)
    obtain ⟨text, htext⟩ := hsome
    exact ⟨text, htext, (json_reads_back oddSettings).2 text htext⟩
  · refine (json_reads_back _).1.mpr (Or.inl ?_)
    exact Utf8.decode?_eq_none_iff.mp rfl

end Settings

end SuiteRunner
