import SuiteRunner.Text.Blank
import SuiteRunner.Text.Utf8

/-!
# The opt-out marker

A test file opts out of a run by a comment that starts with the marker (`IGNORE_MARKER`), after
nothing but blank characters. The file is read in chunks, and no further than the answer needs.

* `scan`: `scan_space`, where the content of a byte string starts, or how much of it is blank. It
  takes its bytes one at a time, so a string can be scanned in parts;
* `Source`: a reader, as the chunks it delivers and what comes after them;
* `Head.round`: one round of the loop that looks for content. It has the answer, or drops the blank
  part of what was read and keeps the rest for the next round (`seek`);
* `Source.startsWithMarker`: `starts_with_marker`, whether what is read opts out.
-/

namespace SuiteRunner.Marker

/-- The marker. -/
def text : String := "// cutest-ignore"

/-- The bytes of the marker. -/
def bytes : Bytes := Bytes.ofString text

/-! ## Blank bytes -/

/-- What a byte string starts with. -/
inductive Scan where
  /-- A character that is not blank, or a byte that is no character, stands at `offset`, after
  blank characters only. -/
  | content (offset : Nat)
  /-- There are only blank characters, `length` bytes of them, and after them at most the start
  of one more character. -/
  | blank (length : Nat)
  deriving DecidableEq, Repr

/-- The scan of `bs` by a decoder in the state `p` of a character that started at `start`, with
the next byte at `pos`. -/
def scanFrom (p : Utf8.Pending) (start pos : Nat) : Bytes → Scan
  | [] => .blank start
  | b :: bs =>
    match Utf8.feed p b with
    | .char c => if isBlank c then scanFrom .idle (pos + 1) (pos + 1) bs else .content start
    | .more q => scanFrom q start (pos + 1) bs
    | .refused => .content start

/-- What `bs` starts with. -/
def scan (bs : Bytes) : Scan := scanFrom .idle 0 0 bs

/-! ## Readers -/

/-- What a reader delivers at a time: at least one byte. -/
structure Chunk where
  /-- The first byte. -/
  first : UInt8
  /-- The bytes after it. -/
  rest : Bytes
  deriving DecidableEq, Repr

/-- The bytes of a chunk. -/
def Chunk.bytes (c : Chunk) : Bytes := c.first :: c.rest

/-- A reader: the chunks that it delivers, and then the end of the file or a fault. -/
structure Source (ε : Type) where
  /-- The chunks in order. -/
  chunks : List Chunk
  /-- The fault that reading on ends in; none at the end of a file. -/
  fault? : Option ε

namespace Source

/-- All that is delivered. -/
def delivered (cs : List Chunk) : Bytes := cs.flatMap Chunk.bytes

/-- Chunks of `size + 1` bytes, the last one possibly shorter. -/
def cut (size : Nat) : Bytes → List Chunk
  | [] => []
  | b :: bs => ⟨b, bs.take size⟩ :: cut size (bs.drop size)
termination_by bs => bs.length

/-- The reader of a file that holds `content`. -/
def ofContent {ε : Type} (size : Nat) (content : Bytes) : Source ε := ⟨cut size content, none⟩

variable {ε : Type}

/-- What comes of reading on behind the last byte: `a` at the end of a file, or the fault. -/
def atEnd {α : Type} (fault? : Option ε) (a : α) : Except ε α :=
  match fault? with
  | none => .ok a
  | some e => .error e

/-- The next `n` bytes, or all that there are. A fault behind them is not met. -/
def readUpTo (fault? : Option ε) : Nat → List Chunk → Except ε Bytes
  | 0, _ => .ok []
  | _ + 1, [] => atEnd fault? []
  | n + 1, c :: cs =>
    if n + 1 ≤ c.bytes.length then .ok (c.bytes.take (n + 1))
    else (readUpTo fault? (n + 1 - c.bytes.length) cs).map (c.bytes ++ ·)

/-- The bytes at the start of content, as many as the marker has: `pending` and what is read. -/
def readContent (fault? : Option ε) (pending : Bytes) (cs : List Chunk) : Except ε Bytes :=
  (readUpTo fault? (bytes.length - pending.length) cs).map (pending ++ ·)

/-! ## Looking for content -/

/-- The loop before a read. -/
structure Head where
  /-- The bytes that were read and not dropped. -/
  pending : Bytes
  /-- The chunks to come. -/
  unread : List Chunk
  deriving DecidableEq, Repr

/-- What a round of the loop comes to. -/
inductive Round (ε : Type) where
  /-- The answer. -/
  | answer (r : Except ε Bool)
  /-- There are blank characters only, which are dropped, and the loop goes on at `h`. -/
  | next (dropped : Bytes) (h : Head)

/-- **One round of the loop**: a chunk is read behind the pending bytes, and they are scanned. Where
content starts in them, it is seen whether it starts with the marker. -/
def Head.round (fault? : Option ε) (h : Head) : Round ε :=
  match h.unread with
  | [] => .answer (atEnd fault? false)
  | c :: cs =>
    let buffer := h.pending ++ c.bytes
    match scan buffer with
    | .content offset =>
      .answer ((readContent fault? (buffer.drop offset) cs).map bytes.isPrefixOf)
    | .blank length => .next (buffer.take length) ⟨buffer.drop length, cs⟩

/-- A round after which the loop goes on has read a chunk. -/
theorem Head.of_round_eq_next {fault? : Option ε} {h h' : Head} {dropped : Bytes}
    (hr : h.round fault? = .next dropped h') :
    ∃ c n, h.unread = c :: h'.unread ∧ scan (h.pending ++ c.bytes) = .blank n ∧
      dropped = (h.pending ++ c.bytes).take n ∧ h'.pending = (h.pending ++ c.bytes).drop n := by
  unfold Head.round at hr
  split at hr
  · cases hr
  · rename_i c cs hunread
    simp only at hr
    split at hr
    · cases hr
    · rename_i n hs
      cases hr
      exact ⟨c, n, hunread, hs, rfl, rfl⟩

/-- The rounds of the loop from `h` on, until one has the answer. -/
def seek (fault? : Option ε) (h : Head) : Except ε Bool :=
  match _ : h.round fault? with
  | .answer r => r
  | .next _ h' => seek fault? h'
termination_by h.unread.length
decreasing_by
  rename_i hr
  obtain ⟨c, n, hunread, -⟩ := Head.of_round_eq_next hr
  rw [hunread]
  exact Nat.lt_succ_self _

/-- **What is read starts, after blank characters, with the marker.** -/
def startsWithMarker (s : Source ε) : Except ε Bool := seek s.fault? ⟨[], s.chunks⟩

end Source

end SuiteRunner.Marker
