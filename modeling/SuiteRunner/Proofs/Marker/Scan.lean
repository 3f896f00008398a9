import SuiteRunner.Marker
import SuiteRunner.Proofs.Text.Utf8

/-!
# What a scan finds

A byte string opts out (`Marked`) if it is blank characters, then the marker, then anything. The
scan takes bytes one at a time, so it has to find the same characters however it gets to them.

* `scan_split`: a byte string is blank characters and a rest; the scan is `content` if the rest
  shows at once that it is none, and `blank` if the rest is the start of a character at most;
* `scan_append_of_content`, `scan_append_of_blank`: **a scan goes on where it stopped**. What it
  found stays, and the blank part can be dropped before more bytes come;
* `marked_iff_scan`: a byte string opts out iff the marker stands where its content starts.
-/

namespace SuiteRunner.Marker

open Utf8 (Pending Reads Leads feed)

/-- `content` opts out: blank characters, the marker, and whatever comes then. -/
def Marked (content : Bytes) : Prop :=
  ∃ (ws : List Char) (rest : Bytes), (∀ c ∈ ws, isBlank c = true) ∧
    content = Utf8.encode ws ++ bytes ++ rest

/-- A scan of what stands `n` bytes further on. -/
def Scan.shift (n : Nat) : Scan → Scan
  | .content offset => .content (n + offset)
  | .blank length => .blank (n + length)

/-! ## Along a character -/

variable {p q : Pending} {cs : Bytes} {c : Char}

theorem scanFrom_of_reads_blank (h : Reads p cs c) (hc : isBlank c = true) (start pos : Nat)
    (x : Bytes) :
    scanFrom p start pos (cs ++ x) =
      scanFrom .idle (pos + cs.length) (pos + cs.length) x := by
  induction h generalizing pos with
  | last hb =>
    rw [List.singleton_append, scanFrom, hb]
    exact if_pos hc
  | @more _ q b bs c hb _ ih =>
    rw [List.cons_append, scanFrom, hb]
    have hlen : pos + (b :: bs).length = pos + 1 + bs.length := by
      rw [List.length_cons]
      omega
    rw [hlen]
    exact ih hc (pos + 1)

theorem scanFrom_of_reads_visible (h : Reads p cs c) (hc : isBlank c = false) (start pos : Nat)
    (x : Bytes) : scanFrom p start pos (cs ++ x) = .content start := by
  induction h generalizing pos with
  | last hb =>
    rw [List.singleton_append, scanFrom, hb]
    exact if_neg (by rw [hc]; exact Bool.false_ne_true)
  | more hb _ ih =>
    rw [List.cons_append, scanFrom, hb]
    exact ih hc (pos + 1)

theorem scanFrom_of_leads (h : Leads p cs q) (start pos : Nat) (x : Bytes) :
    scanFrom p start pos (cs ++ x) = scanFrom q start (pos + cs.length) x := by
  induction h generalizing pos with
  | nil => rfl
  | @cons _ q r b bs hb _ ih =>
    rw [List.cons_append, scanFrom, hb]
    have hlen : pos + (b :: bs).length = pos + 1 + bs.length := by
      rw [List.length_cons]
      omega
    rw [hlen]
    exact ih (pos + 1)

theorem scanFrom_shift (n : Nat) (p : Pending) (start pos : Nat) (bs : Bytes) :
    scanFrom p (n + start) (n + pos) bs = (scanFrom p start pos bs).shift n := by
  induction bs generalizing p start pos with
  | nil => rfl
  | cons b bs ih =>
    unfold scanFrom
    cases feed p b with
    | refused => rfl
    | more q => exact ih q start (pos + 1)
    | char c =>
      simp only
      split
      · exact ih .idle (pos + 1) (pos + 1)
      · rfl

/-! ## Blank characters in front -/

theorem scan_of_reads_blank (h : Reads .idle cs c) (hc : isBlank c = true) (x : Bytes) :
    scan (cs ++ x) = (scan x).shift cs.length := by
  unfold scan
  rw [scanFrom_of_reads_blank h hc, Nat.zero_add]
  exact scanFrom_shift cs.length .idle 0 0 x

/-- Blank characters only move a scan. -/
theorem scan_encode_append {ws : List Char} (hws : ∀ c ∈ ws, isBlank c = true) (x : Bytes) :
    scan (Utf8.encode ws ++ x) = (scan x).shift (Utf8.encode ws).length := by
  induction ws with
  | nil =>
    show scan x = (scan x).shift 0
    cases scan x <;> simp only [Scan.shift, Nat.zero_add]
  | cons c ws ih =>
    have hc : Reads .idle (String.utf8EncodeChar c) c := Utf8.reads_idle_iff.mpr rfl
    have hcons : Utf8.encode (c :: ws) = String.utf8EncodeChar c ++ Utf8.encode ws :=
      List.flatMap_cons
    rw [hcons, List.append_assoc, scan_of_reads_blank hc (hws c List.mem_cons_self),
      ih fun d hd => hws d (List.mem_cons_of_mem c hd), List.length_append]
    cases scan x <;> simp only [Scan.shift, Nat.add_assoc]

/-- **A byte string is blank characters and a rest**, which is no blank character whatever comes
after it, or the start of a character at most. -/
theorem scan_split (bs : Bytes) :
    ∃ (ws : List Char) (rest : Bytes), (∀ c ∈ ws, isBlank c = true) ∧
      bs = Utf8.encode ws ++ rest ∧
      ((scan bs = .content (Utf8.encode ws).length ∧ ∀ x, scan (rest ++ x) = .content 0) ∨
        (scan bs = .blank (Utf8.encode ws).length ∧ ∃ q, Leads .idle rest q)) := by
  -- on the number of bytes: one character may be many of them
  generalize hn : bs.length = n
  induction n using Nat.strongRecOn generalizing bs with
  | ind n ih =>
    rcases Utf8.reads_or_leads_or_refused .idle bs with
      ⟨cs, rest, c, rfl, hr⟩ | ⟨q, hq⟩ | ⟨cs, rest, b, q, rfl, hq, hb⟩
    · cases hc : isBlank c with
      | false =>
        refine ⟨[], cs ++ rest, by simp, rfl, Or.inl ⟨?_, fun x => ?_⟩⟩
        · exact scanFrom_of_reads_visible hr hc 0 0 rest
        · rw [List.append_assoc]
          exact scanFrom_of_reads_visible hr hc 0 0 (rest ++ x)
      | true =>
        have hcs := Utf8.reads_idle_iff.mp hr
        have hpos : 0 < cs.length := by
          rw [hcs]
          exact List.length_pos_iff.mpr String.utf8EncodeChar_ne_nil
        rw [List.length_append] at hn
        obtain ⟨ws, rest', hws, rfl, h⟩ := ih rest.length (by omega) rest rfl
        have hcons : Utf8.encode (c :: ws) = cs ++ Utf8.encode ws := by
          rw [hcs]
          exact List.flatMap_cons
        refine ⟨c :: ws, rest', ?_, by rw [hcons, List.append_assoc], ?_⟩
        · intro d hd
          rcases List.mem_cons.mp hd with rfl | hd
          · exact hc
          · exact hws d hd
        · rw [scan_of_reads_blank hr hc, hcons, List.length_append]
          rcases h with ⟨h, hx⟩ | ⟨h, hx⟩
          · exact Or.inl ⟨by rw [h]; rfl, hx⟩
          · exact Or.inr ⟨by rw [h]; rfl, hx⟩
    · refine ⟨[], bs, by simp, rfl, Or.inr ⟨?_, q, hq⟩⟩
      have h := scanFrom_of_leads hq 0 0 []
      rw [List.append_nil] at h
      exact h
    · refine ⟨[], cs ++ b :: rest, by simp, rfl, Or.inl ⟨?_, fun x => ?_⟩⟩
      · unfold scan
        rw [scanFrom_of_leads hq, scanFrom, hb]
        rfl
      · unfold scan
        rw [List.append_assoc, scanFrom_of_leads hq, List.cons_append, scanFrom, hb]

/-! ## More bytes -/

/-- **Content stays where it was found**, whatever comes after it. -/
theorem scan_append_of_content {bs : Bytes} {n : Nat} (h : scan bs = .content n) (x : Bytes) :
    scan (bs ++ x) = .content n := by
  obtain ⟨ws, rest, hws, rfl, ⟨hs, hx⟩ | ⟨hs, -⟩⟩ := scan_split bs
  · rw [hs] at h
    rw [List.append_assoc, scan_encode_append hws, hx]
    exact h
  · rw [hs] at h
    cases h

/-- **The blank part can be dropped** before more bytes come. -/
theorem scan_append_of_blank {bs : Bytes} {n : Nat} (h : scan bs = .blank n) (x : Bytes) :
    scan (bs ++ x) = (scan (bs.drop n ++ x)).shift n := by
  obtain ⟨ws, rest, hws, rfl, ⟨hs, -⟩ | ⟨hs, -⟩⟩ := scan_split bs
  · rw [hs] at h
    cases h
  · rw [hs] at h
    cases h
    rw [List.drop_left, List.append_assoc, scan_encode_append hws]

/-- What is left of blank bytes is the start of a character at most. -/
theorem scan_drop_of_blank {bs : Bytes} {n : Nat} (h : scan bs = .blank n) :
    scan (bs.drop n) = .blank 0 := by
  have hx := scan_append_of_blank h []
  rw [List.append_nil, List.append_nil, h] at hx
  cases hd : scan (bs.drop n) with
  | content offset =>
    rw [hd] at hx
    cases hx
  | blank length =>
    rw [hd] at hx
    have : n = n + length := Scan.blank.inj hx
    rw [show length = 0 by omega]

theorem length_of_scan {bs : Bytes} {n : Nat} (h : scan bs = .content n ∨ scan bs = .blank n) :
    n ≤ bs.length := by
  obtain ⟨ws, rest, -, rfl, ⟨hs, -⟩ | ⟨hs, -⟩⟩ := scan_split bs <;> rw [hs] at h
  · rcases h with h | h <;> cases h
    rw [List.length_append]
    omega
  · rcases h with h | h <;> cases h
    rw [List.length_append]
    omega

/-! ## The marker -/

/-- The marker is content from its first byte on. -/
theorem scan_bytes_append (x : Bytes) : scan (bytes ++ x) = .content 0 := by
  have hr : Reads .idle [0x2F] '/' := Reads.last (by decide)
  have hb : bytes = [0x2F] ++ bytes.tail := by decide
  rw [hb, List.append_assoc]
  exact scanFrom_of_reads_visible hr (by decide) 0 0 _

/-- **A byte string opts out iff the marker stands where its content starts.** -/
theorem marked_iff_scan {content : Bytes} :
    Marked content ↔ ∃ n, scan content = .content n ∧ bytes <+: content.drop n := by
  constructor
  · rintro ⟨ws, rest, hws, rfl⟩
    refine ⟨(Utf8.encode ws).length, ?_, rest, ?_⟩
    · rw [List.append_assoc, scan_encode_append hws, scan_bytes_append]
      rfl
    · rw [List.append_assoc, List.drop_left]
  · rintro ⟨n, hn, rest, hrest⟩
    obtain ⟨ws, tail, hws, rfl, ⟨hs, -⟩ | ⟨hs, -⟩⟩ := scan_split content
    · rw [hs] at hn
      cases hn
      rw [List.drop_left] at hrest
      exact ⟨ws, rest, hws, by rw [List.append_assoc, hrest]⟩
    · rw [hs] at hn
      cases hn

end SuiteRunner.Marker
