import SuiteRunner.CommandLine.Console
import SuiteRunner.Proofs.Session.Passes
import SuiteRunner.Proofs.Tally
import SuiteRunner.Proofs.Text.Utf8

/-!
# The lines of the console

What the console prints, written out: labels and marks, paths, reasons and numbers, each with the
control sequences of its colours where colours are wanted. The console comes to the same texts by
inks, labels and words that it looks up.

* `TestFile.display_of_path`: a test is shown as its path;
* `statusText`, `statusLine_eq`: the status line of a report is its label and what it says behind
  it. `labelled_statusTexts`: the label tells which report it is of;
* `tallyUnder`, **`tallyText_ofHistory`**: the tally counts the status lines above it, by their
  labels;
* `markText`, `endText`, `emptyText`: the lines of a listing, each test by the report that a run
  would make of it;
* `errorText_infix`: a failure is shown with its message.
-/

namespace SuiteRunner

/-- A test whose path is a text is shown as this text. -/
theorem TestFile.display_of_path {test : TestFile} {text : String}
    (h : test.path = Path.ofString text) : test.display = text := by
  have hlossy := Utf8.lossyFrom_encode text.toList
  unfold TestFile.display Path.display Utf8.lossy
  rw [h]
  unfold Path.ofString Bytes.ofString
  rw [hlossy, String.ofList_toList]

/-- What a listing says of the test of a report. -/
def Report.mark : Report → Except Failure Bool
  | finished _ .ignored => .ok true
  | finished _ _ => .ok false
  | errored _ failure => .error failure

namespace Console

variable {color : Bool} {x y : Tally.Entry}

/-! ## Colours -/

/-- A text behind the control sequences `start`, and then the one that ends them, if colours are
wanted. -/
def inked (color : Bool) (start text : String) : String :=
  if color then start ++ text ++ "\x1b[0m" else text

/-- The control sequence of an ink. -/
def Ink.start : Ink → String
  | bold => "\x1b[1m"
  | dim => "\x1b[2m"
  | red => "\x1b[31m"
  | green => "\x1b[32m"
  | yellow => "\x1b[33m"
  | blue => "\x1b[34m"
  | cyan => "\x1b[36m"

theorem sequence_number (ink : Ink) : sequence ink.number = ink.start := by
  cases ink <;> rfl

theorem paint_singleton (color : Bool) (ink : Ink) (text : String) :
    paint color [ink] text = inked color ink.start text := by
  cases color
  · rfl
  · simp only [paint, inked, List.map_cons, List.map_nil, String.join_cons, String.join_nil,
      String.append_empty, if_true, sequence_number]
    rfl

/-! ## Status lines -/

/-- What the status line of an entry starts with. -/
def lineLabel (color : Bool) : Tally.Entry → String
  | some .success => inked color "\x1b[32m\x1b[1m" "SUCCESS" ++ ":"
  | some .failed => inked color "\x1b[31m\x1b[1m" "FAILED" ++ ":"
  | some .timeout => inked color "\x1b[33m\x1b[1m" "TIMEOUT" ++ ":"
  | some .ignored => inked color "\x1b[2m" "IGNORED" ++ ":"
  | none => inked color "\x1b[31m\x1b[1m" "ERROR" ++ ":"

/-- What the status line of a report says behind its label. -/
def lineBody : Report → String
  | .finished test .timeout => " " ++ test.display ++ " took too long.\n"
  | .finished test .ignored => " " ++ test.display ++ "\n"
  | .finished test _ => " " ++ test.display ++ ".\n"
  | .errored test failure => " " ++ test.display ++ ": " ++ failure.message ++ "\n"

/-- The status line of a report. -/
def statusText (color : Bool) (r : Report) : String := lineLabel color r.entry ++ lineBody r

theorem label_eq (color : Bool) (v : Verdict) :
    paint color (inksOf v) v.label ++ ":" = lineLabel color (some v) := by
  cases v <;> cases color <;> rfl

theorem errorLabel_eq (color : Bool) :
    paint color [.red, .bold] "ERROR" ++ ":" = lineLabel color none := by
  cases color <;> rfl

theorem statusLine_eq (color : Bool) (r : Report) : statusLine color r = statusText color r := by
  cases r with
  | finished test verdict =>
    rw [statusText, Report.entry, ← label_eq]
    cases verdict <;> simp [statusLine, lineBody, toString, ← String.toList_inj]
  | errored test failure =>
    rw [statusText, Report.entry, ← errorLabel_eq]
    simp [statusLine, lineBody, toString, ← String.toList_inj]

theorem statusLines_eq (color : Bool) (told : List Report) :
    told.map (statusLine color) = told.map (statusText color) :=
  List.map_congr_left fun r _ => statusLine_eq color r

/-- No label starts with another one. -/
theorem lineLabel_inj
    (h : (lineLabel color x).toList <+: (lineLabel color y).toList) : x = y := by
  rcases x with _ | (_ | _ | _ | _) <;> rcases y with _ | (_ | _ | _ | _) <;>
    first | rfl | (revert h; cases color <;> decide)

theorem label_statusText_iff {r : Report} :
    (lineLabel color x).toList <+: (statusText color r).toList ↔ r.entry = x := by
  rw [statusText, String.toList_append]
  constructor
  · intro h
    rcases List.prefix_or_prefix_of_prefix h (List.prefix_append _ _) with h | h
    · exact (lineLabel_inj h).symm
    · exact lineLabel_inj h
  · rintro rfl
    exact List.prefix_append _ _

/-! ## Tallies -/

/-- How many of the lines start with the label of `x`. -/
def labelled (color : Bool) (x : Tally.Entry) (lines : List String) : Nat :=
  lines.countP fun line => (lineLabel color x).toList.isPrefixOf line.toList

/-- **The label says which report a status line is of.** -/
theorem labelled_statusTexts (told : List Report) :
    labelled color x (told.map (statusText color)) = (told.map Report.entry).count x := by
  unfold labelled
  rw [List.countP_map, List.count, List.countP_map]
  refine List.countP_congr fun r _ => ?_
  rw [Function.comp_apply, List.isPrefixOf_iff_prefix, label_statusText_iff, Function.comp_apply,
    beq_iff_eq]

/-- The tally under status lines: how many lines there are, how many with the label of each
verdict, and how many with that of an error, if there is one. -/
def tallyUnder (color : Bool) (lines : List String) : String :=
  "\n\n\nTotal tests run: " ++ inked color "\x1b[1m" (toString lines.length) ++ "\n" ++
    inked color "\x1b[32m" (toString (labelled color (some .success) lines)) ++
      " x successful\n" ++
    inked color "\x1b[31m" (toString (labelled color (some .failed) lines)) ++ " x failed\n" ++
    inked color "\x1b[33m" (toString (labelled color (some .timeout) lines)) ++
      " x timed-out\n" ++
    inked color "\x1b[2m" (toString (labelled color (some .ignored) lines)) ++ " x ignored\n" ++
    if labelled color none lines = 0 then ""
    else inked color "\x1b[31m" (toString (labelled color none lines)) ++ " x errored\n"

theorem countLine_eq (color : Bool) (ink : Ink) (n : Nat) (label : String) :
    countLine color ink n label = inked color ink.start (toString n) ++ " x " ++ label ++ "\n" := by
  simp only [countLine, paint_singleton]
  rfl

/-- **The tally of the reports is the tally under their status lines.** -/
theorem tallyText_ofHistory (told : List Report) :
    tallyText color (Tally.ofHistory (told.map Report.entry)) =
      tallyUnder color (told.map (statusText color)) := by
  have hstart (rest : String) :
      "\n\n\n" ++ ("Total tests run: " ++ rest) = "\n\n\nTotal tests run: " ++ rest :=
    String.append_assoc.symm
  unfold tallyText tallyUnder
  simp only [labelled_statusTexts, Tally.total_ofHistory, Tally.count_ofHistory,
    Tally.errored_ofHistory, List.length_map, countLine_eq, paint_singleton, Verdict.all,
    List.map_cons, List.map_nil, String.join_cons, String.join_nil, tallyInk, Verdict.tallyLabel,
    Ink.start]
  split <;> simp [toString, String.append_assoc, hstart]

/-! ## Listings -/

/-- The line of a listing for a test that a run would report: its mark, its path, and why it cannot
be read, if it cannot. -/
def markText (color : Bool) : Report → String
  | .finished test .ignored =>
    "  " ++ inked color "\x1b[2m" "ignored" ++ " " ++ test.display ++ "\n"
  | .finished test _ => "  " ++ inked color "\x1b[32m" "active" ++ "  " ++ test.display ++ "\n"
  | .errored test failure =>
    "  " ++ inked color "\x1b[31m" "error" ++ "  " ++ test.display ++
      " (" ++ failure.message ++ ")\n"

theorem listLine_eq (color : Bool) (r : Report) :
    listLine color r.test r.mark = markText color r := by
  rcases r with ⟨test, _ | _ | _ | _⟩ | ⟨test, failure⟩ <;>
    simp [listLine, markText, Report.mark, Report.test, paint_singleton, Ink.start, toString,
      ← String.toList_inj]

example : markText false (.errored ⟨⟨[0x73, 0x2F, 0x62]⟩⟩
      (.testUnreadable ⟨[0x73, 0x2F, 0x62]⟩ .noAccess)) =
    "  error  s/b (cannot read test file s/b: Permission denied (os error 13))\n" := by decide

/-- The end of a listing: how many tests there are, and how many of them opt out. -/
def endText (color : Bool) (tests ignored : Nat) : String :=
  "\n" ++ inked color "\x1b[36m" (toString tests) ++ " test files, " ++
    inked color "\x1b[36m" (toString ignored) ++ " ignored\n"

theorem listEnd_eq (color : Bool) (tests ignored : Nat) :
    listEnd color tests ignored = endText color tests ignored := by
  simp [listEnd, endText, paint_singleton, Ink.start, toString]

/-- What stands in place of an empty listing. -/
def emptyText (color : Bool) (extension : String) (dir : Path) : String :=
  inked color "\x1b[34m" "ℹ" ++ " No test files ending in " ++ extension ++ " under " ++
    dir.display ++ "\n"

theorem emptyList_eq (color : Bool) (extension : String) (dir : Path) :
    emptyList color extension dir = emptyText color extension dir := by
  simp [emptyList, emptyText, paint_singleton, Ink.start, toString]

/-! ## Failures -/

/-- The line of a failure. -/
def errorText (failure : Failure) : String := "Error: " ++ failure.message ++ "\n"

/-- **A failure is shown with its message.** -/
theorem errorText_infix (color : Bool) (failure : Failure) :
    (errorText failure).toList <:+: (failureText color failure).toList := by
  refine ⟨(hintText color failure).toList, (causeText failure).toList, ?_⟩
  simp [failureText, errorText, toString]

end Console

end SuiteRunner
