import SuiteRunner.Session
import SuiteRunner.Settings

/-!
# Supervision

Model of the runner `Watchdog`: one test runs in a child process under a budget. Two things race
(`timeout` around the child's `wait`): the end of the child and the timer. If the timer wins, the
child is killed (`start_kill`); then its end is awaited in any case. What the child and the system
do is a sequence of moves, chosen by nobody here, and `Watch.step` says what each move makes of a
watch.

* the race is decided by a look at the wait and then at the timer, so the timer wins only against a
  child that has not ended;
* a child that ended by itself keeps its status, whatever is sent to it later; one that is sent a
  kill may still end by itself before the kill takes effect;
* **the verdict is that of the status which was collected**, whoever won the race;
* a watch is over only when the child is collected, could not be started, or was lost; a child
  that was lost and neither collected nor killed is killed as it is given up.
-/

namespace SuiteRunner.Supervision

/-- A child process as the system knows it. -/
inductive Child where
  /-- It runs. -/
  | running
  /-- It still runs, and a kill was sent to it. -/
  | doomed
  /-- It has ended, and nobody has asked for its status. -/
  | ended (status : WaitStatus)
  /-- Its status was collected, and it is gone. -/
  | reaped (status : WaitStatus)
  deriving DecidableEq, Repr

/-- The timer of a watch. -/
inductive Timer where
  | armed
  | fired
  | dropped
  deriving DecidableEq, Repr

/-- What a watch waits for. -/
inductive Stage where
  /-- The start of the child. -/
  | starting
  /-- The end of the child or the timer, whichever comes first. -/
  | racing
  /-- The kill, now that the timer has fired. -/
  | killing
  /-- The end of the child, now that a kill was sent to it. -/
  | collecting
  /-- Nothing: this is the answer. -/
  | over (answer : Except Failure Verdict)

/-- A watch over one child: the `run` of `Watchdog`, at one of its awaits. -/
structure Watch where
  /-- What is waited for. -/
  stage : Stage
  /-- The child, once it is started. -/
  child? : Option Child
  /-- The timer, once it is set. -/
  timer? : Option Timer

namespace Watch

/-- A watch before anything happened. -/
def fresh : Watch := ⟨.starting, none, none⟩

/-- The answer of a watch that is over. -/
def answer? (w : Watch) : Option (Except Failure Verdict) :=
  match w.stage with
  | .over a => some a
  | _ => none

/-- The child is started and has not ended. -/
def isAlive (w : Watch) : Bool :=
  match w.child? with
  | some .running | some .doomed => true
  | _ => false

end Watch

/-- What the child, the timer or the system does next. -/
inductive Move where
  /-- The start is done, or refused. -/
  | start (refusal? : Option Fault)
  /-- The child prints. -/
  | print (stream : Stream) (bytes : Bytes)
  /-- The child ends by itself. -/
  | quit (status : WaitStatus)
  /-- The timer wins the race: it fires, and there is no end of the child to collect. -/
  | ring
  /-- The kill is sent, or refused. -/
  | kill (refusal? : Option Fault)
  /-- The kill takes effect: the child ends by a signal. -/
  | fall (status : WaitStatus)
  /-- The wait for the child is done, or fails. -/
  | collect (fault? : Option Fault)

/-- What a watch is about: the two fields of `Watchdog`, the test, and the child. -/
structure Task where
  /-- The executable that is started. -/
  executable : Path
  /-- The test that it gets. -/
  test : TestFile
  /-- The budget in milliseconds. -/
  budgetMs : Nat
  /-- The number of the child. -/
  child : Nat

namespace Task

/-- The answer when the child was lost. -/
def lost (k : Task) (cause : Fault) : Except Failure Verdict :=
  .error (.waitFailed k.test.path cause)

/-- The notes on a child that ended with `status`; `killed` says that the timer won. -/
def endNotes (k : Task) (status : WaitStatus) (killed : Bool) : List Event :=
  (if status.verdict == .timeout && !killed then
    [.noted (.exitedAbnormally k.test.path status)] else []) ++
  [.noted (.finished k.test.path status status.verdict)]

end Task

namespace Watch

/-- The watch when the status of the child is collected. -/
def close (k : Task) (status : WaitStatus) (killed : Bool) : Watch × List Event :=
  (⟨.over (.ok status.verdict), some (.reaped status), some .dropped⟩,
    .child k.child (.reaped status) :: .child k.child .timerDropped :: k.endNotes status killed)

/-- The watch when the child is lost. One that was not killed yet is killed as it is given up. -/
def giveUp (k : Task) (w : Watch) (killed : Bool) (cause : Fault) : Watch × List Event :=
  (⟨.over (k.lost cause), w.child?, some .dropped⟩,
    .child k.child .timerDropped :: if killed then [] else [.child k.child .abandoned])

/-- What sending a kill makes of a child. -/
def killChild : Child → Child
  | .running => .doomed
  | c => c

/-- **The watch after a move**, and what happens with it; none for a move that cannot come now. -/
def step (k : Task) (w : Watch) : Move → Option (Watch × List Event)
  | .start none =>
    match w.stage with
    | .starting =>
      some (⟨.racing, some .running, some .armed⟩,
        [.child k.child .spawned, .noted (.spawned k.test.path), .child k.child .timerArmed])
    | _ => none
  | .start (some cause) =>
    match w.stage with
    | .starting => some ({ w with stage := .over (.error (.spawnFailed k.executable cause)) }, [])
    | _ => none
  | .print stream bytes => if w.isAlive then some (w, [.relayed stream bytes]) else none
  | .quit status =>
    if w.isAlive then some ({ w with child? := some (.ended status) }, []) else none
  | .ring =>
    match w.stage with
    | .racing =>
      -- the wait is looked at before the timer, and it is over if the child has ended
      if w.isAlive then
        some ({ w with stage := .killing, timer? := some .fired },
          [.child k.child .timerFired, .noted (.budgetExceeded k.test.path k.budgetMs)])
      else none
    | _ => none
  | .kill none =>
    match w.stage with
    | .killing =>
      some ({ w with stage := .collecting, child? := w.child?.map killChild },
        [.child k.child .killed])
    | _ => none
  | .kill (some cause) =>
    match w.stage with
    | .killing => some (giveUp k w false cause)
    | _ => none
  | .fall status =>
    if w.child? = some .doomed ∧ status.signal ≠ 0 then
      some ({ w with child? := some (.ended status) }, [])
    else none
  | .collect none =>
    match w.stage, w.child? with
    | .racing, some (.ended status) => some (close k status false)
    | .collecting, some (.ended status) => some (close k status true)
    | _, _ => none
  | .collect (some cause) =>
    match w.stage with
    | .racing => some (giveUp k w false cause)
    | .collecting => some (giveUp k w true cause)
    | _ => none

/-- The watch after moves one after another, those that cannot come when they do left out. -/
def follow (k : Task) (w : Watch) : List Move → Watch × List Event
  | [] => (w, [])
  | m :: ms =>
    match w.answer? with
    | some _ => (w, [])
    | none =>
      match step k w m with
      | none => follow k w ms
      | some (w', es) =>
        let (w'', es') := follow k w' ms
        (w'', es ++ es')

theorem endNotes_ofWatch (k : Task) (status : WaitStatus) (killed : Bool) :
    ∀ e ∈ k.endNotes status killed, e.ofWatch = true := by
  intro e he
  unfold Task.endNotes at he
  rcases List.mem_append.mp he with he | he
  · split at he
    · rw [List.mem_singleton.mp he]
      rfl
    · exact absurd he List.not_mem_nil
  · rw [List.mem_singleton.mp he]
    rfl

theorem close_ofWatch (k : Task) (status : WaitStatus) (killed : Bool) :
    ∀ e ∈ (close k status killed).2, e.ofWatch = true := by
  intro e he
  rcases List.mem_cons.mp he with rfl | he
  · rfl
  rcases List.mem_cons.mp he with rfl | he
  · rfl
  exact endNotes_ofWatch k status killed e he

theorem giveUp_ofWatch (k : Task) (w : Watch) (killed : Bool) (cause : Fault) :
    ∀ e ∈ (giveUp k w killed cause).2, e.ofWatch = true := by
  cases killed <;> simp [giveUp, Event.ofWatch]

/-- All that happens in a move is the watch's own doing. -/
theorem step_ofWatch {k : Task} {w w' : Watch} {m : Move} {es : List Event}
    (h : step k w m = some (w', es)) : ∀ e ∈ es, e.ofWatch = true := by
  cases m with
  | start refusal? =>
    cases refusal? with
    | none | some cause =>
      simp only [step] at h
      split at h <;> cases h
      simp [Event.ofWatch]
  | ring =>
    simp only [step] at h
    split at h
    · split at h <;> cases h
      simp [Event.ofWatch]
    · cases h
  | print | quit | fall =>
    simp only [step] at h
    split at h <;> cases h
    simp [Event.ofWatch]
  | kill refusal? =>
    cases refusal? with
    | none =>
      simp only [step] at h
      split at h <;> cases h
      simp [Event.ofWatch]
    | some cause =>
      simp only [step] at h
      split at h <;> cases h
      exact giveUp_ofWatch k w false cause
  | collect fault? =>
    cases fault? with
    | none =>
      simp only [step] at h
      split at h <;> cases h
      · exact close_ofWatch k _ false
      · exact close_ofWatch k _ true
    | some cause =>
      simp only [step] at h
      split at h <;> cases h
      · exact giveUp_ofWatch k w false cause
      · exact giveUp_ofWatch k w true cause

/-- All that happens in a watch is its own doing. -/
theorem follow_ofWatch (k : Task) (w : Watch) (ms : List Move) :
    ∀ e ∈ (follow k w ms).2, e.ofWatch = true := by
  induction ms generalizing w with
  | nil => exact fun e he => absurd he List.not_mem_nil
  | cons m ms ih =>
    unfold follow
    cases w.answer? with
    | some a => exact fun e he => absurd he List.not_mem_nil
    | none =>
      cases h : step k w m with
      | none => exact ih w
      | some r =>
        intro e he
        rcases List.mem_append.mp he with he | he
        · exact step_ofWatch h e he
        · exact ih r.1 e he

end Watch

/-! ## Running tests under supervision -/

/-- What comes of starting an executable on a test. -/
structure Life (σ : Type) where
  /-- What the child, its timer and the system do. -/
  moves : List Move
  /-- The state of the host afterwards. -/
  state : σ
  /-- The tree afterwards. -/
  tree : Tree

/-- Whatever processes run on: what comes of starting an executable on a test, with a budget. -/
abbrev Host (σ : Type) := σ → Tree → (executable : Path) → (budgetMs : Nat) → TestFile → Life σ

/-- A host, and how many children were started on it. -/
structure Watched (σ : Type) where
  /-- The number of the next child. -/
  next : Nat
  /-- The state of the host. -/
  state : σ

/-- **The runner that starts an executable for each test and watches over it.** -/
def runner {σ : Type} (host : Host σ) (executable : Path) (budgetMs : Nat) :
    Runner (Watched σ) :=
  fun s t test =>
    let life := host s.state t executable budgetMs test
    let k : Task := ⟨executable, test, budgetMs, s.next⟩
    let followed := Watch.fresh.follow k life.moves
    let w := followed.1
    let started := if w.child?.isSome then 1 else 0
    ⟨⟨w.answer?, followed.2, ⟨s.next + started, life.state⟩, life.tree⟩,
      fun e he => Event.apart_of_ofWatch (Watch.follow_ofWatch k Watch.fresh life.moves e he)⟩

/-- A session under supervision with the settings `s`. -/
def session {σ : Type} (host : Host σ) (listener : Listener) (s : Settings) (h : Watched σ)
    (t : Tree) : Session.Record (Watched σ) :=
  Session.run (runner host s.executable s.timeoutMs.toNat) listener s.suiteDir s.extension h t

end SuiteRunner.Supervision
