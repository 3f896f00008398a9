import SuiteRunner.Suite

/-!
# Events

Everything that happens in a run and that someone can see, in the order in which it happens: what
the listener is told (`test_finished` and `test_errored`), what the journal notes, what is printed,
and what the operating system is asked to do with child processes.
-/

namespace SuiteRunner

/-- What a listener is told about a test. -/
inductive Report where
  /-- The test came out as `verdict`. -/
  | finished (test : TestFile) (verdict : Verdict)
  /-- The test could not be run. -/
  | errored (test : TestFile) (failure : Failure)
  deriving Repr

/-- The test that a report is about. -/
def Report.test : Report → TestFile
  | finished t _ | errored t _ => t

/-- The two streams of a process. -/
inductive Stream where
  | out
  | err
  deriving DecidableEq, Repr

/-- What is done to a child process, or to the timer that watches it. -/
inductive ChildEvent where
  /-- The process is started. -/
  | spawned
  /-- Its timer is set. -/
  | timerArmed
  /-- Its timer runs out. -/
  | timerFired
  /-- Its timer is given up. -/
  | timerDropped
  /-- It is killed because its budget is used up. -/
  | killed
  /-- A kill is tried because nobody waits for it any more. -/
  | abandoned
  /-- Its status is collected, and the process is gone. -/
  | reaped (status : WaitStatus)
  deriving DecidableEq, Repr

/-- An event of a run. -/
inductive Event where
  /-- A test file is opened, to see whether it opts out. -/
  | examined (test : TestFile)
  /-- The runner is asked to run a test. -/
  | handed (test : TestFile)
  /-- A listener that keeps its reports is told one. -/
  | reported (report : Report)
  /-- The journal gets an entry. -/
  | noted (note : Note)
  /-- The run itself prints a text. -/
  | shown (text : String)
  /-- A child process prints bytes. -/
  | relayed (stream : Stream) (bytes : Bytes)
  /-- Something is done to the child with the number `child`. -/
  | child (child : Nat) (event : ChildEvent)
  deriving Repr

namespace Event

/-- The session does this itself: it looks at a test, hands it over, or tells of it. -/
def ofSession : Event → Bool
  | examined _ | handed _ | reported _ => true
  | _ => false

/-- The watch over a child does this: it acts on the child, passes on what the child prints, and
notes. -/
def ofWatch : Event → Bool
  | noted _ | relayed _ _ | child _ _ => true
  | _ => false

/-- The test whose file is opened. -/
def examined? : Event → Option TestFile
  | examined test => some test
  | _ => none

/-- The test that the runner is asked to run. -/
def handed? : Event → Option TestFile
  | handed test => some test
  | _ => none

/-- The report that is told. -/
def reported? : Event → Option Report
  | reported r => some r
  | _ => none

/-- The entry that the journal gets. -/
def noted? : Event → Option Note
  | noted n => some n
  | _ => none

/-- What is done to the child with the number `c`. -/
def doneTo? (c : Nat) : Event → Option ChildEvent
  | child d event => if d = c then some event else none
  | _ => none

/-- The bytes that are printed to the stream `s`. -/
def printed (s : Stream) : Event → Bytes
  | shown text => if s = .out then Bytes.ofString text else []
  | relayed s' bytes => if s' = s then bytes else []
  | _ => []

end Event

/-- The tests whose files are opened, in order. -/
def examinations (es : List Event) : List TestFile := es.filterMap Event.examined?

/-- The calls of the runner, in order. -/
def calls (es : List Event) : List TestFile := es.filterMap Event.handed?

/-- The reports, in order. -/
def reports (es : List Event) : List Report := es.filterMap Event.reported?

/-- The journal, in order. -/
def journal (es : List Event) : List Note := es.filterMap Event.noted?

/-- What is done to the child with the number `c`, in order. -/
def doneTo (c : Nat) (es : List Event) : List ChildEvent := es.filterMap (Event.doneTo? c)

/-- All that is printed to a stream. -/
def printed (s : Stream) (es : List Event) : Bytes := es.flatMap (Event.printed s)

/-! ## Views of longer histories -/

@[simp] theorem examinations_append (as bs : List Event) :
    examinations (as ++ bs) = examinations as ++ examinations bs := List.filterMap_append

@[simp] theorem calls_append (as bs : List Event) : calls (as ++ bs) = calls as ++ calls bs :=
  List.filterMap_append

@[simp] theorem reports_append (as bs : List Event) :
    reports (as ++ bs) = reports as ++ reports bs := List.filterMap_append

@[simp] theorem doneTo_append (c : Nat) (as bs : List Event) :
    doneTo c (as ++ bs) = doneTo c as ++ doneTo c bs := List.filterMap_append

@[simp] theorem doneTo_nil (c : Nat) : doneTo c [] = [] := rfl

theorem doneTo_cons (c : Nat) (e : Event) (es : List Event) :
    doneTo c (e :: es) = (e.doneTo? c).toList ++ doneTo c es := by
  unfold doneTo
  rw [List.filterMap_cons]
  cases e.doneTo? c <;> rfl

theorem Event.doneTo?_eq_some {c : Nat} {event : ChildEvent} {e : Event} :
    e.doneTo? c = some event ↔ e = .child c event := by
  cases e with
  | child d event' => simp [doneTo?]
  | examined | handed | reported | noted | shown | relayed => simp [doneTo?]

theorem mem_doneTo {c : Nat} {event : ChildEvent} {es : List Event} :
    event ∈ doneTo c es ↔ .child c event ∈ es := by
  simp [doneTo, Event.doneTo?_eq_some]

theorem Event.apart_of_ofWatch {e : Event} (h : e.ofWatch = true) : e.ofSession = false := by
  cases e with
  | noted | relayed | child => rfl
  | examined | handed | reported | shown => cases h

theorem Event.views_of_apart {e : Event} (h : e.ofSession = false) :
    e.examined? = none ∧ e.handed? = none ∧ e.reported? = none := by
  cases e with
  | examined | handed | reported => cases h
  | noted | shown | relayed | child => exact ⟨rfl, rfl, rfl⟩

theorem examinations_of_apart {es : List Event} (h : ∀ e ∈ es, e.ofSession = false) :
    examinations es = [] :=
  List.filterMap_eq_nil_iff.mpr fun e he => (Event.views_of_apart (h e he)).1

theorem calls_of_apart {es : List Event} (h : ∀ e ∈ es, e.ofSession = false) : calls es = [] :=
  List.filterMap_eq_nil_iff.mpr fun e he => (Event.views_of_apart (h e he)).2.1

theorem reports_of_apart {es : List Event} (h : ∀ e ∈ es, e.ofSession = false) :
    reports es = [] :=
  List.filterMap_eq_nil_iff.mpr fun e he => (Event.views_of_apart (h e he)).2.2

end SuiteRunner
