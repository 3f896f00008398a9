import SuiteRunner.Proofs.Marker.Scan
import SuiteRunner.Suite

/-!
# Readers and the marker

A reader delivers a file in chunks, cut anywhere. What is read of it is scanned as it comes, and
only the start of a character is kept from one chunk to the next; then as many bytes are read as
the marker has.

* `seek_eq`: the invariant of the loop. With the start of a character pending, the answer is that
  for everything that is pending or still to come, read in one piece (`oneShot`);
* `startsWithMarker_eq`: so the answer depends on the bytes that are delivered and on the fault
  behind them, and not on the chunks;
* **`startsWithMarker_exact`**: without a fault there is always an answer, and it says whether the
  bytes are blank characters, the marker, and anything.
-/

namespace SuiteRunner.Marker

/-! ## Content in one piece -/

/-- The marker stands where the content of `bs` starts. -/
def opensWithMarker (bs : Bytes) : Bool :=
  match scan bs with
  | .content n => bytes.isPrefixOf (bs.drop n)
  | .blank _ => false

theorem opensWithMarker_iff {bs : Bytes} : opensWithMarker bs = true ↔ Marked bs := by
  rw [marked_iff_scan]
  unfold opensWithMarker
  cases scan bs with
  | content n =>
    rw [List.isPrefixOf_iff_prefix]
    refine ⟨fun h => ⟨n, rfl, h⟩, ?_⟩
    rintro ⟨m, hm, h⟩
    cases hm
    exact h
  | blank n =>
    refine ⟨fun h => absurd h Bool.false_ne_true, ?_⟩
    rintro ⟨m, hm, -⟩
    cases hm

instance : DecidablePred Marked := fun _ => decidable_of_iff _ opensWithMarker_iff

namespace Source

variable {ε : Type}

/-- The answer for a reader that delivers `bs` at once: it needs all bytes up to where the marker
would end. -/
def oneShot (fault? : Option ε) (bs : Bytes) : Except ε Bool :=
  match scan bs with
  | .content n =>
    if bytes.length ≤ (bs.drop n).length then .ok (bytes.isPrefixOf (bs.drop n))
    else atEnd fault? false
  | .blank _ => atEnd fault? false

/-- At the end of a file there is always an answer. -/
theorem oneShot_none (bs : Bytes) : oneShot (none : Option ε) bs = .ok (opensWithMarker bs) := by
  unfold oneShot opensWithMarker
  cases scan bs with
  | blank n => rfl
  | content n =>
    simp only
    split
    · rfl
    · rename_i hlen
      have hp : bytes.isPrefixOf (bs.drop n) = false := by
        rw [Bool.eq_false_iff, ne_eq, List.isPrefixOf_iff_prefix]
        exact fun h => hlen h.length_le
      rw [hp]
      rfl

/-! ## Reading a bounded part -/

theorem delivered_cons (c : Chunk) (cs : List Chunk) :
    delivered (c :: cs) = c.bytes ++ delivered cs := List.flatMap_cons

theorem readUpTo_eq (fault? : Option ε) (n : Nat) (cs : List Chunk) :
    readUpTo fault? n cs =
      if n ≤ (delivered cs).length then .ok ((delivered cs).take n)
      else atEnd fault? (delivered cs) := by
  induction cs generalizing n with
  | nil =>
    cases n with
    | zero => rfl
    | succ n => rfl
  | cons c cs ih =>
    cases n with
    | zero => rfl
    | succ n =>
      unfold readUpTo
      rw [delivered_cons, List.length_append]
      split
      · rename_i h
        rw [if_pos (by omega), List.take_append_of_le_length h]
      · rename_i h
        rw [ih]
        split
        · rename_i hd
          have hc : c.bytes.take (n + 1) = c.bytes := List.take_of_length_le (by omega)
          rw [if_pos (by omega), List.take_append, hc]
          rfl
        · rename_i hd
          rw [if_neg (by omega)]
          cases fault? <;> rfl

/-- Only as many bytes as the marker has decide whether it stands in front. -/
theorem isPrefixOf_append_take (pending rest : Bytes) :
    bytes.isPrefixOf (pending ++ rest.take (bytes.length - pending.length)) =
      bytes.isPrefixOf (pending ++ rest) := by
  rw [Bool.eq_iff_iff, List.isPrefixOf_iff_prefix, List.isPrefixOf_iff_prefix,
    List.prefix_iff_eq_take, List.prefix_iff_eq_take, List.take_append, List.take_append,
    List.take_take, Nat.min_self]

theorem readContent_eq (fault? : Option ε) (pending : Bytes) (cs : List Chunk) :
    (readContent fault? pending cs).map bytes.isPrefixOf =
      if bytes.length ≤ (pending ++ delivered cs).length then
        .ok (bytes.isPrefixOf (pending ++ delivered cs))
      else atEnd fault? false := by
  unfold readContent
  rw [readUpTo_eq, List.length_append]
  split
  · rename_i h
    rw [if_pos (by omega)]
    exact congrArg Except.ok (isPrefixOf_append_take pending (delivered cs))
  · rename_i h
    rw [if_neg (by omega)]
    cases fault? with
    | some e => rfl
    | none =>
      have hp : bytes.isPrefixOf (pending ++ delivered cs) = false := by
        rw [Bool.eq_false_iff, ne_eq, List.isPrefixOf_iff_prefix]
        intro hp
        have := hp.length_le
        rw [List.length_append] at this
        omega
      exact congrArg Except.ok hp

/-! ## The loop -/

section Rounds

variable {fault? : Option ε} {pending : Bytes} {c : Chunk} {cs : List Chunk} {n : Nat}

theorem round_of_content (h : scan (pending ++ c.bytes) = .content n) :
    Head.round fault? ⟨pending, c :: cs⟩ =
      .answer ((readContent fault? ((pending ++ c.bytes).drop n) cs).map bytes.isPrefixOf) := by
  unfold Head.round
  simp only [h]

theorem round_of_blank (h : scan (pending ++ c.bytes) = .blank n) :
    Head.round fault? ⟨pending, c :: cs⟩ =
      .next ((pending ++ c.bytes).take n) ⟨(pending ++ c.bytes).drop n, cs⟩ := by
  unfold Head.round
  simp only [h]

/-- The last round has the answer. -/
theorem seek_of_answer {h : Head} {r : Except ε Bool} (hr : h.round fault? = .answer r) :
    seek fault? h = r := by
  unfold seek
  split
  · rename_i r' hr'
    exact Round.answer.inj (hr'.symm.trans hr)
  · rename_i hr'
    cases hr'.symm.trans hr

/-- Any other round leaves the answer to the rounds after it. -/
theorem seek_of_next {h h' : Head} {dropped : Bytes} (hr : h.round fault? = .next dropped h') :
    seek fault? h = seek fault? h' := by
  rw [seek]
  split
  · rename_i hr'
    cases hr'.symm.trans hr
  · rename_i hr'
    rw [(Round.next.inj (hr'.symm.trans hr)).2]

end Rounds

/-- **The invariant of the loop**: while nothing but the start of a character is pending, the
answer is that for all that is pending or still to come. -/
theorem seek_eq (fault? : Option ε) {pending : Bytes} (h : scan pending = .blank 0)
    (cs : List Chunk) : seek fault? ⟨pending, cs⟩ = oneShot fault? (pending ++ delivered cs) := by
  induction cs generalizing pending with
  | nil =>
    have hd : pending ++ delivered [] = pending := List.append_nil pending
    rw [hd, seek_of_answer rfl]
    unfold oneShot
    rw [h]
  | cons c cs ih =>
    rw [delivered_cons, ← List.append_assoc]
    cases hs : scan (pending ++ c.bytes) with
    | content n =>
      have hn := length_of_scan (Or.inl hs)
      rw [seek_of_answer (round_of_content hs), readContent_eq]
      unfold oneShot
      rw [scan_append_of_content hs, ← List.drop_append_of_le_length hn]
    | blank n =>
      -- the blank part is dropped, and what is left is pending again
      have hn := length_of_scan (Or.inr hs)
      rw [seek_of_next (round_of_blank hs), ih (scan_drop_of_blank hs)]
      unfold oneShot
      rw [scan_append_of_blank hs]
      cases scan ((pending ++ c.bytes).drop n ++ delivered cs) with
      | blank m => rfl
      | content m =>
        simp only [Scan.shift]
        rw [← List.drop_append_of_le_length hn, List.drop_drop]

/-- **The answer does not depend on the chunks.** -/
theorem startsWithMarker_eq (s : Source ε) :
    s.startsWithMarker = oneShot s.fault? (delivered s.chunks) :=
  seek_eq s.fault? rfl s.chunks

/-- **At the end of a file there is an answer**, and it says whether the bytes opt out. -/
theorem startsWithMarker_of_no_fault (cs : List Chunk) :
    (⟨cs, none⟩ : Source ε).startsWithMarker = .ok (decide (Marked (delivered cs))) := by
  rw [startsWithMarker_eq, oneShot_none]
  congr 1
  rw [Bool.eq_iff_iff, opensWithMarker_iff, decide_eq_true_iff]

theorem delivered_cut (size : Nat) (content : Bytes) : delivered (cut size content) = content := by
  induction content using cut.induct size with
  | case1 => rw [cut]; rfl
  | case2 b bs ih =>
    rw [cut, delivered_cons, ih]
    exact congrArg (b :: ·) (List.take_append_drop size bs)

theorem startsWithMarker_ofContent (size : Nat) (content : Bytes) :
    (ofContent size content : Source ε).startsWithMarker = .ok (decide (Marked content)) := by
  unfold ofContent
  rw [startsWithMarker_of_no_fault]
  simp only [delivered_cut]

end Source

end SuiteRunner.Marker

namespace SuiteRunner

open Marker (Marked Chunk Source)

/-! ## Test files -/

/-- **Whether a test opts out** is what its file says, if the file can be read. -/
theorem TestFile.optsOut_eq (t : Tree) (test : TestFile) :
    test.optsOut t =
      match t.read test.path with
      | .ok content => .ok (decide (Marked content))
      | .error cause => .error (.testUnreadable test.path cause) := by
  have hread : ∀ r : Except Fault Bytes,
      test.optsOutOf (r.map (Source.ofContent Tree.chunkSize)) =
        match r with
        | .ok content => .ok (decide (Marked content))
        | .error cause => .error (.testUnreadable test.path cause) := by
    intro r
    unfold TestFile.optsOutOf
    cases r with
    | error cause => rfl
    | ok content =>
      simp only [Except.map, Except.bind, Source.startsWithMarker_ofContent]
  unfold TestFile.optsOut Tree.read Tree.openFile
  cases h : t.entryOf test.path with
  | error cause => rfl
  | ok e =>
    cases e with
    | file f => exact hread f.read
    | null => exact hread (.ok [])
    | directory =>
      -- it is opened, and the first read fails
      have hfails : (⟨[], some .isDirectory⟩ : Source Fault).startsWithMarker =
          .error .isDirectory := Source.seek_of_answer rfl
      simp only [bind, Except.bind, TestFile.optsOutOf, hfails]
    | link target => exact hread (.error .tooManyLinks)

/-- A tree with one file `a`: a blank character of three bytes, and the marker. -/
def wideBlankTree : Tree where
  home := []
  entries := [([[0x61]], .file { content := Utf8.encode ['\u3000'] ++ Marker.bytes })]
  nodup := by decide
  named := by decide

theorem wideBlankTree_locate : wideBlankTree.locate true ⟨[0x61]⟩ = .ok (.taken [[0x61]]) := by
  have hc : Tree.checkPath ⟨[0x61]⟩ = .ok () := rfl
  have hs : wideBlankTree.startOf ⟨[0x61]⟩ = [] := rfl
  have hp : Path.pieces [0x61] = [[0x61]] := by decide
  have hr : wideBlankTree.entry? [] = some .directory := rfl
  have hf : wideBlankTree.entry? [[0x61]] =
      some (.file { content := Utf8.encode ['\u3000'] ++ Marker.bytes }) := rfl
  rw [Tree.locate, hc, hs, hp]
  simp [bind, Except.bind, Tree.walk, hr, hf, Path.dot, Tree.nameLimit]

/-- **The marker is found however a file is cut into chunks.** Without a fault every reader gets an
answer: yes if the bytes are blank characters, the marker and anything, and no if they are not.
The same holds of a test whose file can be read. -/
theorem startsWithMarker_exact :
    (∀ (ε : Type) (cs : List Chunk),
      ((⟨cs, none⟩ : Source ε).startsWithMarker = .ok true ↔ Marked (Source.delivered cs)) ∧
      ((⟨cs, none⟩ : Source ε).startsWithMarker = .ok false ↔
        ¬ Marked (Source.delivered cs))) ∧
    ∀ (t : Tree) (test : TestFile) (content : Bytes), t.read test.path = .ok content →
      (test.optsOut t = .ok true ↔ Marked content) ∧
      (test.optsOut t = .ok false ↔ ¬ Marked content) := by
  constructor
  · intro ε cs
    rw [Source.startsWithMarker_of_no_fault]
    simp only [Except.ok.injEq, decide_eq_true_iff, decide_eq_false_iff_not, true_and]
  · intro t test content h
    rw [TestFile.optsOut_eq, h]
    simp only [Except.ok.injEq, decide_eq_true_iff, decide_eq_false_iff_not, true_and]

theorem startsWithMarker_exact_wide_blank :
    wideBlankTree.read ⟨[0x61]⟩ = .ok (Utf8.encode ['\u3000'] ++ Marker.bytes) ∧
      TestFile.optsOut wideBlankTree ⟨⟨[0x61]⟩⟩ = .ok true := by
  have h : wideBlankTree.read ⟨[0x61]⟩ = .ok (Utf8.encode ['\u3000'] ++ Marker.bytes) := by
    rw [Tree.read, Tree.entryOf, Tree.resolve, wideBlankTree_locate]
    rfl
  refine ⟨h, (startsWithMarker_exact.2 wideBlankTree ⟨⟨[0x61]⟩⟩ _ h).1.mpr ?_⟩
  have hblank : isBlank '\u3000' = true := by decide
  refine ⟨['\u3000'], [], fun c hc => ?_, by rw [List.append_nil]⟩
  rw [List.mem_singleton.mp hc]
  exact hblank

end SuiteRunner
