import SuiteRunner.Proofs.Marker.Source
import SuiteRunner.Proofs.Text.Partial

/-!
# What is kept between two reads

The bytes of a reader are scanned as they come. Before each read the loop stands at a head: it has
dropped blank characters, and it keeps the bytes that are no character yet. A round (`Head.round`)
reads one chunk, and has the answer or leads to the next head.

* `scan_eq_blank_iff`: a scan finds nothing but blank characters iff there are such characters and
  an `Unfinished` rest. `Unfinished.length_le`: that rest has three bytes at most;
* `Reached`: the heads that the rounds lead to, with all that was dropped on the way.
  `startsWithMarker_eq_iff`: the answer for a reader is that of the last round of its loop;
* `Kept.round`: the step lemma. A round drops blank characters only, keeps an unfinished rest, and
  loses no byte; `kept_of_reached` lifts it to every head;
* **`pending_unfinished`**: scans go on where they stopped, so however long the blank part of a file
  is and however it is cut into chunks, no more than the start of one character is ever kept.
-/

namespace SuiteRunner.Marker

open Utf8 (Leads)

/-! ## Unfinished bytes -/

/-- Nothing but blank characters, each of them complete. -/
def BlankText (bs : Bytes) : Prop :=
  ∃ ws : List Char, (∀ c ∈ ws, isBlank c = true) ∧ bs = Utf8.encode ws

/-- Nothing, or the start of a character that is not all of it. -/
def Unfinished (bs : Bytes) : Prop :=
  bs = [] ∨ ∃ c, bs <+: String.utf8EncodeChar c ∧ bs ≠ String.utf8EncodeChar c

variable {as bs : Bytes} {n : Nat}

theorem blankText_nil : BlankText [] := ⟨[], by simp, rfl⟩

theorem BlankText.append (ha : BlankText as) (hb : BlankText bs) : BlankText (as ++ bs) := by
  obtain ⟨vs, hvs, rfl⟩ := ha
  obtain ⟨ws, hws, rfl⟩ := hb
  refine ⟨vs ++ ws, ?_, List.flatMap_append.symm⟩
  intro c hc
  rcases List.mem_append.mp hc with hc | hc
  · exact hvs c hc
  · exact hws c hc

/-- **Bytes are unfinished** iff a decoder waits for more behind them. -/
theorem unfinished_iff_leads : Unfinished bs ↔ ∃ q, Leads .idle bs q := by
  constructor
  · intro h
    rcases h with rfl | h
    · exact ⟨.idle, Leads.nil .idle⟩
    · exact Utf8.leads_idle_iff.mpr h
  · intro h
    exact Or.inr (Utf8.leads_idle_iff.mp h)

/-- A character has four bytes at most, so three of them can be unfinished. -/
theorem Unfinished.length_le (h : Unfinished bs) : bs.length ≤ 3 := by
  rcases h with rfl | ⟨c, hp, hne⟩
  · simp
  · have hlt : bs.length < (String.utf8EncodeChar c).length := by
      refine Nat.lt_of_le_of_ne hp.length_le ?_
      intro hlen
      exact hne (hp.eq_of_length hlen)
    rw [String.length_utf8EncodeChar] at hlt
    have := c.utf8Size_le_four
    omega

/-- **A scan finds blank characters only** iff what is behind them is unfinished. -/
theorem scan_eq_blank_iff :
    scan bs = .blank n ↔
      n ≤ bs.length ∧ BlankText (bs.take n) ∧ Unfinished (bs.drop n) := by
  constructor
  · intro h
    obtain ⟨ws, rest, hws, rfl, ⟨hs, -⟩ | ⟨hs, hq⟩⟩ := scan_split bs
    · rw [hs] at h
      cases h
    · obtain rfl := Scan.blank.inj (hs.symm.trans h)
      rw [List.take_left, List.drop_left]
      exact ⟨by simp, ⟨ws, hws, rfl⟩, unfinished_iff_leads.mpr hq⟩
  · rintro ⟨hn, ⟨ws, hws, htake⟩, hrest⟩
    obtain ⟨q, hq⟩ := unfinished_iff_leads.mp hrest
    have hscan : scan (bs.drop n) = .blank 0 := by
      have h := scanFrom_of_leads hq 0 0 []
      rw [List.append_nil] at h
      exact h
    have hlen : (Utf8.encode ws).length = n := by
      rw [← htake, List.length_take_of_le hn]
    calc
      scan bs = scan (Utf8.encode ws ++ bs.drop n) := by rw [← htake, List.take_append_drop]
      _ = (scan (bs.drop n)).shift (Utf8.encode ws).length := scan_encode_append hws _
      _ = .blank n := by rw [hscan, hlen, Scan.shift, Nat.add_zero]

namespace Source

variable {ε : Type} {fault? : Option ε} {s : Source ε} {cs : List Chunk} {h h' : Head}
  {drained dropped : Bytes} {r : Except ε Bool}

/-! ## Heads -/

/-- **The loop goes on** iff a chunk is read and there is nothing but blank characters so far. -/
theorem round_eq_next_iff :
    h.round fault? = .next dropped h' ↔
      ∃ c n, h.unread = c :: h'.unread ∧ scan (h.pending ++ c.bytes) = .blank n ∧
        dropped = (h.pending ++ c.bytes).take n ∧ h'.pending = (h.pending ++ c.bytes).drop n := by
  refine ⟨Head.of_round_eq_next, ?_⟩
  rintro ⟨c, n, hunread, hscan, rfl, hpending⟩
  unfold Head.round
  rw [hunread]
  simp only [hscan, ← hpending]

/-- The loop over the reader `s` comes to the head `h`, and has dropped all of `drained` before. -/
inductive Reached (s : Source ε) : Bytes → Head → Prop
  | first : Reached s [] ⟨[], s.chunks⟩
  | next {drained dropped : Bytes} {h h' : Head} (hreach : Reached s drained h)
      (hround : h.round s.fault? = .next dropped h') : Reached s (drained ++ dropped) h'

/-- What is still to be done is the same at every head. -/
theorem Reached.seek_eq (hr : Reached s drained h) : seek s.fault? h = s.startsWithMarker := by
  induction hr with
  | first => rfl
  | next _ hround ih => rw [← ih, seek_of_next hround]

/-- From every head the loop comes to a round that has the answer. -/
theorem Reached.exists_answer (hr : Reached s drained h) :
    ∃ drained' h', Reached s drained' h' ∧ h'.round s.fault? = .answer (seek s.fault? h) := by
  induction h using seek.induct s.fault? generalizing drained with
  | case1 h r hround =>
    refine ⟨drained, h, hr, ?_⟩
    rw [hround, seek_of_answer hround]
  | case2 h dropped h' hround ih =>
    obtain ⟨drained', last, hreach, hlast⟩ := ih (hr.next hround)
    refine ⟨drained', last, hreach, ?_⟩
    rw [hlast, seek_of_next hround]

/-- **The answer for a reader** is that of the last round of its loop. -/
theorem startsWithMarker_eq_iff :
    s.startsWithMarker = r ↔ ∃ drained h, Reached s drained h ∧ h.round s.fault? = .answer r := by
  constructor
  · rintro rfl
    exact Reached.first.exists_answer
  · rintro ⟨drained, h, hreach, hround⟩
    rw [← hreach.seek_eq, seek_of_answer hround]

/-! ## The invariant -/

/-- What holds before each read of a reader that delivers `cs`. -/
structure Kept (cs : List Chunk) (drained : Bytes) (h : Head) : Prop where
  /-- Only blank characters were dropped. -/
  blank : BlankText drained
  /-- What is kept is no character. -/
  unfinished : Unfinished h.pending
  /-- No byte is lost. -/
  whole : drained ++ h.pending ++ delivered h.unread = delivered cs

theorem Kept.first (cs : List Chunk) : Kept cs [] ⟨[], cs⟩ := ⟨blankText_nil, Or.inl rfl, rfl⟩

/-- **A round keeps the invariant.** -/
theorem Kept.round (hk : Kept cs drained h) (hr : h.round fault? = .next dropped h') :
    Kept cs (drained ++ dropped) h' := by
  obtain ⟨hblank, -, hwhole⟩ := hk
  obtain ⟨c, n, hunread, hscan, rfl, hpending⟩ := round_eq_next_iff.mp hr
  obtain ⟨-, hdropped, hrest⟩ := scan_eq_blank_iff.mp hscan
  refine ⟨hblank.append hdropped, hpending ▸ hrest, ?_⟩
  rw [← hwhole, hunread, delivered_cons, hpending, List.append_assoc _ (List.take _ _),
    List.take_append_drop]
  simp only [List.append_assoc]

/-- A chunk has a byte, so there is less to read after a round. -/
theorem unread_lt_of_round (hr : h.round fault? = .next dropped h') :
    (delivered h'.unread).length < (delivered h.unread).length := by
  obtain ⟨c, n, hunread, -⟩ := round_eq_next_iff.mp hr
  rw [hunread]
  simp only [delivered_cons, List.length_append, Chunk.bytes, List.length_cons]
  omega

/-- **The invariant holds at every head.** -/
theorem kept_of_reached (hr : Reached s drained h) : Kept s.chunks drained h := by
  induction hr with
  | first => exact Kept.first s.chunks
  | next _ hround ih => exact ih.round hround

end Source

/-! ## Scans in parts -/

/-- **No more than the start of one character is kept between two reads.** Content that a scan found
stays where it is, whatever comes behind it. A scan that found blank characters only has a rest of
three bytes at most, which is empty or the start of a character, and goes on from that rest alone.
So before every read of a reader, the bytes that were dropped are blank characters at its start, the
bytes that are kept are such a rest, and no byte is lost between them and those to come. A round is
not the last iff it reads a chunk and finds blank characters only: it drops them, keeps the rest,
and leaves less to come. These are the heads of the loop that has the answer. -/
theorem pending_unfinished :
    (∀ (bs x : Bytes) (n : Nat), scan bs = .content n → scan (bs ++ x) = .content n) ∧
    (∀ (bs : Bytes) (n : Nat), scan bs = .blank n →
      n ≤ bs.length ∧ BlankText (bs.take n) ∧ (bs.drop n).length ≤ 3 ∧ Unfinished (bs.drop n) ∧
      ∀ x, scan (bs ++ x) = (scan (bs.drop n ++ x)).shift n) ∧
    ∀ (ε : Type) (s : Source ε),
      (∀ drained h, Source.Reached s drained h →
        BlankText drained ∧ h.pending.length ≤ 3 ∧ Unfinished h.pending ∧
        drained ++ h.pending ++ Source.delivered h.unread = Source.delivered s.chunks ∧
        (∀ dropped h', (h.round s.fault? = .next dropped h' ↔
            ∃ c n, h.unread = c :: h'.unread ∧ scan (h.pending ++ c.bytes) = .blank n ∧
              dropped = (h.pending ++ c.bytes).take n ∧
              h'.pending = (h.pending ++ c.bytes).drop n) ∧
          (h.round s.fault? = .next dropped h' →
            (Source.delivered h'.unread).length < (Source.delivered h.unread).length)) ∧
        Source.seek s.fault? h = s.startsWithMarker) ∧
      ∀ r, s.startsWithMarker = r ↔
        ∃ drained h, Source.Reached s drained h ∧ h.round s.fault? = .answer r := by
  refine ⟨fun bs x n h => scan_append_of_content h x, ?_, ?_⟩
  · intro bs n h
    obtain ⟨hn, hblank, hrest⟩ := scan_eq_blank_iff.mp h
    exact ⟨hn, hblank, hrest.length_le, hrest, scan_append_of_blank h⟩
  · intro ε s
    refine ⟨?_, fun r => Source.startsWithMarker_eq_iff⟩
    intro drained h hreach
    obtain ⟨hblank, hrest, hwhole⟩ := Source.kept_of_reached hreach
    exact ⟨hblank, hrest.length_le, hrest, hwhole,
      fun dropped h' => ⟨Source.round_eq_next_iff, Source.unread_lt_of_round⟩, hreach.seek_eq⟩

/-- Two blank characters of three bytes each, cut in the middle of both, and the marker. -/
def wideBlanks : Source Unit := ⟨[⟨0xE3, [0x80]⟩, ⟨0x80, [0xE3]⟩, ⟨0x80, 0x80 :: bytes⟩], none⟩

/-- Of each blank character, only what came of it before the cut is kept. -/
theorem pending_unfinished_wide_blanks :
    scan ([0x20, 0x2F] ++ [0xFF]) = .content 1 ∧
    Unfinished [0xE3] ∧ scan ([0x20, 0xE3] ++ [0x80, 0x80]) = .blank 4 ∧
    Source.Reached wideBlanks [0xE3, 0x80, 0x80] ⟨[0xE3], wideBlanks.chunks.drop 2⟩ ∧
    BlankText [0xE3, 0x80, 0x80] ∧
    (Source.delivered (wideBlanks.chunks.drop 2)).length <
      (Source.delivered (wideBlanks.chunks.drop 1)).length ∧
    Source.seek none ⟨[0xE3], wideBlanks.chunks.drop 2⟩ = wideBlanks.startsWithMarker := by
  obtain ⟨hcontent, hblank, hloop⟩ := pending_unfinished
  obtain ⟨-, -, -, hrest, hmore⟩ := hblank [0x20, 0xE3] 1 (by decide)
  have hfirst : Source.Head.round wideBlanks.fault? ⟨[], wideBlanks.chunks⟩ =
      .next [] ⟨[0xE3, 0x80], wideBlanks.chunks.drop 1⟩ := rfl
  have hsecond : Source.Head.round wideBlanks.fault? ⟨[0xE3, 0x80], wideBlanks.chunks.drop 1⟩ =
      .next [0xE3, 0x80, 0x80] ⟨[0xE3], wideBlanks.chunks.drop 2⟩ := rfl
  have hreach : Source.Reached wideBlanks [] ⟨[0xE3, 0x80], wideBlanks.chunks.drop 1⟩ :=
    Source.Reached.first.next hfirst
  have hheads := (hloop Unit wideBlanks).1
  obtain ⟨-, -, -, -, hless, -⟩ := hheads _ _ hreach
  obtain ⟨hdropped, -, -, -, -, hseek⟩ := hheads _ _ (hreach.next hsecond)
  exact ⟨hcontent [0x20, 0x2F] [0xFF] 1 (by decide), hrest, (hmore [0x80, 0x80]).trans (by decide),
    hreach.next hsecond, hdropped, (hless _ _).2 hsecond, hseek⟩

end SuiteRunner.Marker
