import SuiteRunner.Proofs.Marker.Source
import SuiteRunner.Proofs.Text.Partial

/-!
# Faults and the marker

A reader may fail before the end of a file. Whether a test opts out is then known all the same, if
what was delivered shows where the content starts and is long enough for the marker to stand there.

* `ContentAt`: content starts here. There are blank characters in front, and then a character that
  is none, or bytes that are no character and the start of none;
* `scan_eq_content_iff`: this is what a scan finds;
* `Decisive`: the bytes decide whether the marker stands in front of the content.
  `Decisive.of_prefix`: as many bytes as there are up to its end are enough for that;
* `startsWithMarker_faulty`: **the answer for a reader that fails** is there iff what it delivers is
  decisive, and the fault is passed on if it is not;
* **`fault_met_iff_needed`**: so it is for every way to cut the bytes into chunks; a fault behind
  decisive bytes is never met; and a test with such a file fails by that fault, with its path.
-/

namespace SuiteRunner.Marker

open Utf8 (Undecodable)

/-! ## Where content starts -/

/-- The bytes start with content: a character that is not blank, or no character at all. -/
def Visible (bs : Bytes) : Prop :=
  (∃ c, isBlank c = false ∧ String.utf8EncodeChar c <+: bs) ∨ Undecodable bs

/-- The content of `bs` starts at `n`, behind blank characters. -/
def ContentAt (bs : Bytes) (n : Nat) : Prop :=
  ∃ (ws : List Char) (rest : Bytes), (∀ c ∈ ws, isBlank c = true) ∧
    bs = Utf8.encode ws ++ rest ∧ n = (Utf8.encode ws).length ∧ Visible rest

theorem scan_eq_content_zero_iff {bs : Bytes} : scan bs = .content 0 ↔ Visible bs := by
  constructor
  · intro h
    rcases Utf8.reads_or_leads_or_refused .idle bs with ⟨cs, rest, c, rfl, hr⟩ | ⟨q, hq⟩ | hb
    · cases hc : isBlank c with
      | false =>
        rw [Utf8.reads_idle_iff.mp hr]
        exact Or.inl ⟨c, hc, List.prefix_append _ _⟩
      | true =>
        -- behind a blank character, content does not start at the first byte
        have hpos : 0 < cs.length := List.length_pos_iff.mpr hr.ne_nil
        rw [scan_of_reads_blank hr hc] at h
        cases hx : scan rest with
        | content n =>
          rw [hx] at h
          have := Scan.content.inj h
          omega
        | blank n =>
          rw [hx] at h
          cases h
    · have h' := scanFrom_of_leads hq 0 0 []
      rw [List.append_nil] at h'
      rw [scan, h'] at h
      cases h
    · exact Or.inr (Utf8.refused_iff.mp hb)
  · rintro (⟨c, hc, rest, rfl⟩ | h)
    · exact scanFrom_of_reads_visible (Utf8.reads_idle_iff.mpr rfl) hc 0 0 rest
    · obtain ⟨cs, rest, b, q, rfl, hq, hb⟩ := Utf8.refused_iff.mpr h
      rw [scan, scanFrom_of_leads hq, scanFrom, hb]

/-- **A scan finds where content starts.** -/
theorem scan_eq_content_iff {bs : Bytes} {n : Nat} : scan bs = .content n ↔ ContentAt bs n := by
  constructor
  · intro h
    obtain ⟨ws, rest, hws, rfl, ⟨hs, hx⟩ | ⟨hs, -⟩⟩ := scan_split bs
    · rw [hs] at h
      have hrest := hx []
      rw [List.append_nil] at hrest
      exact ⟨ws, rest, hws, rfl, (Scan.content.inj h).symm, scan_eq_content_zero_iff.mp hrest⟩
    · rw [hs] at h
      cases h
  · rintro ⟨ws, rest, hws, rfl, rfl, hrest⟩
    rw [scan_encode_append hws, scan_eq_content_zero_iff.mpr hrest]
    rfl

theorem ContentAt.unique {bs : Bytes} {m n : Nat} (hm : ContentAt bs m) (hn : ContentAt bs n) :
    m = n :=
  Scan.content.inj ((scan_eq_content_iff.mpr hm).symm.trans (scan_eq_content_iff.mpr hn))

/-! ## Bytes that decide -/

/-- The content of `bs` starts at `n`, and as many bytes as the marker has stand there. -/
def Decisive (bs : Bytes) (n : Nat) : Prop :=
  ContentAt bs n ∧ bytes.length ≤ (bs.drop n).length

/-- A character is shorter than the marker, so its bytes do not matter behind the marker's end. -/
theorem Visible.take {bs : Bytes} (h : Visible bs) (hlen : bytes.length ≤ bs.length) :
    Visible (bs.take bytes.length) := by
  have hchar : ∀ c, (String.utf8EncodeChar c).length < bytes.length := by
    intro c
    have hmarker : bytes.length = 16 := by decide
    rw [String.length_utf8EncodeChar]
    have := c.utf8Size_le_four
    omega
  rcases h with ⟨c, hc, hp⟩ | h
  · refine Or.inl ⟨c, hc, List.prefix_take_iff.mpr ⟨hp, ?_⟩⟩
    exact Nat.le_of_lt (hchar c)
  · refine Or.inr fun c => ⟨fun hp => (h c).1 (hp.trans (List.take_prefix _ _)), fun hp => ?_⟩
    have hle := hp.length_le
    rw [List.length_take_of_le hlen] at hle
    have := hchar c
    omega

/-- **Bytes decide up to where the marker would end**, whatever comes behind it. -/
theorem Decisive.of_prefix {bs ds : Bytes} {n : Nat} (h : Decisive bs n)
    (hp : bs.take (n + bytes.length) <+: ds) :
    Decisive ds n ∧ (bytes <+: ds.drop n ↔ bytes <+: bs.drop n) := by
  obtain ⟨⟨ws, rest, hws, rfl, rfl, hrest⟩, hlen⟩ := h
  rw [List.drop_left] at hlen
  obtain ⟨x, rfl⟩ := hp
  have htake : (Utf8.encode ws ++ rest).take ((Utf8.encode ws).length + bytes.length) =
      Utf8.encode ws ++ rest.take bytes.length := List.take_length_add_append _
  rw [htake, List.append_assoc]
  have hvisible : Visible (rest.take bytes.length ++ x) := by
    have h := scan_eq_content_zero_iff.mpr (hrest.take hlen)
    exact scan_eq_content_zero_iff.mp (scan_append_of_content h x)
  refine ⟨⟨⟨ws, _, hws, rfl, rfl, hvisible⟩, ?_⟩, ?_⟩
  · rw [List.drop_left, List.length_append, List.length_take_of_le hlen]
    omega
  · rw [List.drop_left, List.drop_left, List.prefix_iff_eq_take, List.prefix_iff_eq_take,
      List.take_append_of_le_length (Nat.le_of_eq (List.length_take_of_le hlen).symm),
      List.take_take, Nat.min_self]

namespace Source

variable {ε : Type}

theorem oneShot_of_decisive {bs : Bytes} {n : Nat} (h : Decisive bs n) (fault? : Option ε) :
    oneShot fault? bs = .ok (decide (bytes <+: bs.drop n)) := by
  unfold oneShot
  rw [scan_eq_content_iff.mpr h.1]
  simp only
  rw [if_pos h.2, Except.ok.injEq, Bool.eq_iff_iff, List.isPrefixOf_iff_prefix, decide_eq_true_iff]

theorem oneShot_of_not_decisive {bs : Bytes} (h : ∀ n, ¬ Decisive bs n) (e : ε) :
    oneShot (some e) bs = .error e := by
  unfold oneShot
  cases hs : scan bs with
  | blank n => rfl
  | content n =>
    simp only
    rw [if_neg fun hlen => h n ⟨scan_eq_content_iff.mp hs, hlen⟩]
    rfl

/-- Whatever stands behind decisive bytes, there is an answer. -/
theorem startsWithMarker_of_decisive {s : Source ε} {n : Nat}
    (h : Decisive (delivered s.chunks) n) :
    s.startsWithMarker = .ok (decide (bytes <+: (delivered s.chunks).drop n)) := by
  rw [startsWithMarker_eq, oneShot_of_decisive h]

/-- **A reader that fails** gets the answer that its bytes decide, and its fault if they decide
none. -/
theorem startsWithMarker_faulty (cs : List Chunk) (e : ε) :
    (∃ n, Decisive (delivered cs) n ∧ (⟨cs, some e⟩ : Source ε).startsWithMarker =
        .ok (decide (bytes <+: (delivered cs).drop n))) ∨
      (∀ n, ¬ Decisive (delivered cs) n) ∧
        (⟨cs, some e⟩ : Source ε).startsWithMarker = .error e := by
  by_cases h : ∃ n, Decisive (delivered cs) n
  · obtain ⟨n, hn⟩ := h
    exact Or.inl ⟨n, hn, startsWithMarker_of_decisive hn⟩
  · rw [not_exists] at h
    refine Or.inr ⟨h, ?_⟩
    rw [startsWithMarker_eq]
    exact oneShot_of_not_decisive h e

theorem startsWithMarker_faulty_ok_iff {cs : List Chunk} {e : ε} {b : Bool} :
    (⟨cs, some e⟩ : Source ε).startsWithMarker = .ok b ↔
      ∃ n, Decisive (delivered cs) n ∧ (b = true ↔ bytes <+: (delivered cs).drop n) := by
  rcases startsWithMarker_faulty cs e with ⟨n, hn, hr⟩ | ⟨hno, hr⟩
  · rw [hr, Except.ok.injEq]
    constructor
    · rintro rfl
      exact ⟨n, hn, decide_eq_true_iff⟩
    · rintro ⟨m, hm, hb⟩
      obtain rfl := hm.1.unique hn.1
      rw [Bool.eq_iff_iff, decide_eq_true_iff, hb]
  · rw [hr]
    refine ⟨nofun, ?_⟩
    rintro ⟨n, hn, -⟩
    exact absurd hn (hno n)

theorem startsWithMarker_faulty_error_iff {cs : List Chunk} {e e' : ε} :
    (⟨cs, some e⟩ : Source ε).startsWithMarker = .error e' ↔
      e' = e ∧ ∀ n, ¬ Decisive (delivered cs) n := by
  rcases startsWithMarker_faulty cs e with ⟨n, hn, hr⟩ | ⟨hno, hr⟩
  · rw [hr]
    exact ⟨nofun, fun h => absurd hn (h.2 n)⟩
  · rw [hr, Except.error.injEq]
    exact ⟨fun h => ⟨h.symm, hno⟩, fun h => h.1.symm⟩

end Source

end SuiteRunner.Marker

namespace SuiteRunner

open Marker (Decisive Chunk Source)

/-! ## Test files -/

theorem TestFile.optsOutOf_ok_iff {test : TestFile} {source : Source Fault} {b : Bool} :
    test.optsOutOf (.ok source) = .ok b ↔ source.startsWithMarker = .ok b := by
  unfold TestFile.optsOutOf
  simp only [Except.bind]
  cases source.startsWithMarker with
  | ok a => simp only [Except.ok.injEq]
  | error cause => simp only [reduceCtorEq]

/-- The path of a test goes with whatever its reader fails by. -/
theorem TestFile.optsOutOf_error_iff {test : TestFile} {source : Source Fault} {f : Failure} :
    test.optsOutOf (.ok source) = .error f ↔
      ∃ e, source.startsWithMarker = .error e ∧ f = .testUnreadable test.path e := by
  unfold TestFile.optsOutOf
  simp only [Except.bind]
  cases source.startsWithMarker with
  | ok a => simp only [reduceCtorEq, false_and, exists_false]
  | error cause => simp only [Except.error.injEq, exists_eq_left', eq_comm]

/-- **A fault is met only if it stands in front of a byte that the answer needs.** A reader that
fails gets an answer exactly if what it delivers is decisive, and the answer says whether the marker
stands where the content starts; else it gets its own fault. How the bytes are cut into chunks
changes nothing, and neither does what stands behind decisive bytes. A test whose file is read like
this has the same answer, or is unreadable for that fault. -/
theorem fault_met_iff_needed :
    (∀ (ε : Type) (cs : List Chunk) (e : ε),
      (∀ b, (⟨cs, some e⟩ : Source ε).startsWithMarker = .ok b ↔
        ∃ n, Decisive (Source.delivered cs) n ∧
          (b = true ↔ Marker.bytes <+: (Source.delivered cs).drop n)) ∧
      ∀ e', (⟨cs, some e⟩ : Source ε).startsWithMarker = .error e' ↔
        e' = e ∧ ∀ n, ¬ Decisive (Source.delivered cs) n) ∧
    (∀ (ε : Type) (cs ds : List Chunk) (fault? : Option ε),
      Source.delivered cs = Source.delivered ds →
      (⟨cs, fault?⟩ : Source ε).startsWithMarker = (⟨ds, fault?⟩ : Source ε).startsWithMarker) ∧
    (∀ (ε : Type) (bs : Bytes) (n : Nat), Decisive bs n →
      ∀ (ds : List Chunk) (fault? : Option ε),
      bs.take (n + Marker.bytes.length) <+: Source.delivered ds →
      (⟨ds, fault?⟩ : Source ε).startsWithMarker = .ok (decide (Marker.bytes <+: bs.drop n))) ∧
    (∀ (t : Tree) (test : TestFile), test.optsOut t = test.optsOutOf (t.openFile test.path)) ∧
    ∀ (test : TestFile) (cs : List Chunk) (e : Fault),
      (∀ b, test.optsOutOf (.ok ⟨cs, some e⟩) = .ok b ↔
        ∃ n, Decisive (Source.delivered cs) n ∧
          (b = true ↔ Marker.bytes <+: (Source.delivered cs).drop n)) ∧
      ∀ f, test.optsOutOf (.ok ⟨cs, some e⟩) = .error f ↔
        f = .testUnreadable test.path e ∧ ∀ n, ¬ Decisive (Source.delivered cs) n := by
  refine ⟨fun ε cs e => ⟨fun b => Source.startsWithMarker_faulty_ok_iff,
    fun e' => Source.startsWithMarker_faulty_error_iff⟩, ?_, ?_, fun _ _ => rfl, ?_⟩
  · intro ε cs ds fault? h
    rw [Source.startsWithMarker_eq, Source.startsWithMarker_eq]
    simp only [h]
  · intro ε bs n h ds fault? hp
    obtain ⟨hds, hiff⟩ := h.of_prefix hp
    rw [Source.startsWithMarker_of_decisive (s := ⟨ds, fault?⟩) hds]
    simp only [hiff]
  · intro test cs e
    refine ⟨fun b => ?_, fun f => ?_⟩
    · rw [TestFile.optsOutOf_ok_iff, Source.startsWithMarker_faulty_ok_iff]
    · rw [TestFile.optsOutOf_error_iff]
      simp only [Source.startsWithMarker_faulty_error_iff]
      constructor
      · rintro ⟨e', ⟨rfl, hno⟩, rfl⟩
        exact ⟨rfl, hno⟩
      · rintro ⟨rfl, hno⟩
        exact ⟨e, ⟨rfl, hno⟩, rfl⟩

theorem fault_met_iff_needed_wide_blank :
    Decisive (Utf8.encode ['\u3000'] ++ Marker.bytes) 3 ∧
      (⟨[⟨0xE3, [0x80]⟩, ⟨0x80, Marker.bytes⟩], some ()⟩ : Source Unit).startsWithMarker =
        .ok true ∧
      (⟨[⟨0xE3, [0x80]⟩, ⟨0x80, Marker.bytes.dropLast⟩], some ()⟩ : Source Unit).startsWithMarker =
        .error () := by
  have hd : Decisive (Utf8.encode ['\u3000'] ++ Marker.bytes) 3 :=
    ⟨Marker.scan_eq_content_iff.mp (by decide), by decide⟩
  obtain ⟨hfaulty, -, hfirst, -, -⟩ := fault_met_iff_needed
  refine ⟨hd, ?_, ?_⟩
  · have hp : (Utf8.encode ['\u3000'] ++ Marker.bytes).take (3 + Marker.bytes.length) <+:
        Source.delivered [⟨0xE3, [0x80]⟩, ⟨0x80, Marker.bytes⟩] := by decide
    rw [hfirst Unit _ 3 hd _ (some ()) hp]
    exact congrArg Except.ok (by decide)
  · refine ((hfaulty Unit _ ()).2 ()).mpr ⟨rfl, fun n hn => ?_⟩
    have hscan := Marker.scan_eq_content_iff.mpr hn.1
    have hthree : Marker.scan (Source.delivered
        [⟨0xE3, [0x80]⟩, ⟨0x80, Marker.bytes.dropLast⟩]) = .content 3 := by decide
    obtain rfl := Marker.Scan.content.inj (hthree.symm.trans hscan)
    exact absurd hn.2 (by decide)

end SuiteRunner
