import SuiteRunner.Settings
import SuiteRunner.Text.Digits

/-!
# Arguments

What the arguments of the program ask for (`Cli`, `Commands`, `ConfigArgs`), or what is wrong with
them, by the rules of `clap`. Arguments are read from left to right, and the first fault counts. A
value is looked at when the next option comes or the arguments end, so a fault in it comes after one
in the very next argument.

* `Arguments.parse`: what a list of arguments asks for;
* `Misuse.line`: the line that tells a fault.
-/

namespace SuiteRunner

/-- What the program can be told to do. -/
inductive Subcommand where
  | run
  | list
  deriving DecidableEq, Repr

/-- An option with a value. -/
inductive Flag where
  | config
  | suite
  | exe
  | timeoutMs
  deriving DecidableEq, Repr

namespace Flag

/-- The options that a command has. -/
def ofSubcommand : Subcommand → List Flag
  | .run => [config, suite, exe, timeoutMs]
  | .list => [config, suite]

/-- The name of an option, without its dashes. -/
def name : Flag → String
  | config => "config"
  | suite => "suite"
  | exe => "exe"
  | timeoutMs => "timeout-ms"

/-- How an option is written, with a word for its value. -/
def usage : Flag → String
  | config => "--config <CONFIG>"
  | suite => "--suite <SUITE>"
  | exe => "--exe <EXE>"
  | timeoutMs => "--timeout-ms <TIMEOUT_MS>"

end Flag

/-- What the options of a command give. -/
structure Options where
  /-- The settings file. -/
  config? : Option Path := none
  /-- The suite directory, in place of the one in the file. -/
  suite? : Option Path := none
  /-- The executable, in place of the one in the file. -/
  exe? : Option Path := none
  /-- The budget, in place of the one in the file. -/
  timeoutMs? : Option UInt64 := none
  deriving DecidableEq, Repr

/-- What help can be about. -/
inductive Topic where
  | program
  | command (c : Subcommand)
  | help
  deriving DecidableEq, Repr

/-- What the arguments ask for. -/
inductive Request where
  | perform (c : Subcommand) (options : Options)
  | help (topic : Topic)
  | version
  deriving DecidableEq, Repr

/-! ## Faults -/

/-- Why a text is no number of 64 bits. -/
inductive NotANumber where
  | empty
  | notADigit
  | tooLarge
  deriving DecidableEq, Repr

/-- Why a text is no number, in words. -/
def NotANumber.text : NotANumber → String
  | empty => "cannot parse integer from empty string"
  | notADigit => "invalid digit found in string"
  | tooLarge => "number too large to fit in target type"

/-- What is wrong with the arguments. -/
inductive Misuse where
  /-- There is no command. -/
  | noCommand
  /-- There is no command of that name. -/
  | unknownCommand (name : Bytes)
  /-- There is no such option, or no argument is expected. -/
  | unexpected (argument : Bytes)
  /-- A value for an option that has none. -/
  | unexpectedValue (value : Bytes) (option : String)
  /-- No value, or an empty path, for an option that needs one. -/
  | missingValue (flag : Flag)
  /-- An option for the second time. -/
  | repeated (flag : Flag)
  /-- A budget that is no number. -/
  | badNumber (value : Bytes) (reason : NotANumber)
  /-- A budget that is no text. -/
  | notText
  deriving DecidableEq, Repr

/-- What the program is for. -/
def Topic.about : Topic → String
  | .program => "Test harness for single-file language implementations"
  | .command .run => "Run every test file and print a tally"
  | .command .list => "List discovered test files and whether they are ignored"
  | .help => "Print this message or the help of the given subcommand(s)"

namespace Misuse

/-- The line that tells a fault. -/
def line : Misuse → String
  | noCommand => Topic.program.about
  | unknownCommand n => s!"error: unrecognized subcommand '{Utf8.lossy n}'"
  | unexpected a => s!"error: unexpected argument '{Utf8.lossy a}' found"
  | unexpectedValue v o =>
    s!"error: unexpected value '{Utf8.lossy v}' for '{o}' found; no more were expected"
  | missingValue f => s!"error: a value is required for '{f.usage}' but none was supplied"
  | repeated f => s!"error: the argument '{f.usage}' cannot be used multiple times"
  | badNumber v r =>
    s!"error: invalid value '{Utf8.lossy v}' for '{Flag.timeoutMs.usage}': {r.text}"
  | notText => "error: invalid UTF-8 was detected in one or more arguments"

end Misuse

/-! ## Reading -/

namespace Arguments

/-- The number `n` with one more decimal digit behind it. -/
def addDigit (n : Nat) (c : Char) : Except NotANumber Nat :=
  match digit? 10 c with
  | none => .error .notADigit
  | some d => if n * 10 + d < UInt64.size then .ok (n * 10 + d) else .error .tooLarge

/-- A number of 64 bits in decimal digits. One plus sign may stand in front. Of two faults the
first one in the text counts. -/
def number (cs : List Char) : Except NotANumber UInt64 :=
  let ds := match cs with
    | '+' :: d :: ds => d :: ds
    | cs => cs
  if ds = [] then .error .empty else (ds.foldlM addDigit 0).map UInt64.ofNat

/-- An option has been given. -/
def given (o : Options) : Flag → Bool
  | .config => o.config?.isSome
  | .suite => o.suite?.isSome
  | .exe => o.exe?.isSome
  | .timeoutMs => o.timeoutMs?.isSome

/-- The options with a path for `f`. -/
def putPath (o : Options) (p : Path) : Flag → Options
  | .config => { o with config? := some p }
  | .suite => { o with suite? := some p }
  | .exe => { o with exe? := some p }
  | .timeoutMs => o

/-- The options with the value `v` for `f`. -/
def put (o : Options) (f : Flag) (v : Bytes) : Except Misuse Options :=
  if given o f then .error (.repeated f)
  else if f = .timeoutMs then
    match Utf8.decode? v with
    | none => .error .notText
    | some cs =>
      match number cs with
      | .ok n => .ok { o with timeoutMs? := some n }
      | .error reason => .error (.badNumber v reason)
  else if v = [] then .error (.missingValue f)
  else .ok (putPath o ⟨v⟩ f)

/-- An option that was named, and its value once that has come. -/
abbrev Pending := Option (Flag × Option Bytes)

/-- The options with the pending one put in. -/
def settle (o : Options) : Pending → Except Misuse Options
  | none => .ok o
  | some (f, none) => .error (.missingValue f)
  | some (f, some v) => put o f v

/-- What an argument looks like. -/
inductive Shape where
  /-- Two dashes alone. -/
  | dashes
  /-- Two dashes, a name, and a value after an equals sign if there is one. -/
  | long (name : Bytes) (value? : Option Bytes)
  /-- One dash and letters. -/
  | short (letters : Bytes)
  /-- Anything else. -/
  | word
  deriving DecidableEq, Repr

/-- The byte of `-`. -/
def dash : UInt8 := 0x2D

/-- The byte of `=`. -/
def equals : UInt8 := 0x3D

/-- What `a` looks like. -/
def shapeOf : Bytes → Shape
  | [a, b] => if a = dash then if b = dash then .dashes else .short [b] else .word
  | a :: b :: rest =>
    if a = dash then
      if b = dash then
        let name := rest.takeWhile (· != equals)
        .long name (if name.length < rest.length then some (rest.drop (name.length + 1)) else none)
      else .short (b :: rest)
    else .word
  | _ => .word

/-- The first letter of a group of short options, and the fault if there is no such option. -/
def firstLetter (letters : Bytes) : Option Char × Misuse :=
  match Utf8.lossyFrom .idle letters with
  | [] => (none, .unexpected [dash])
  | c :: _ =>
    if c = Utf8.replacement then (none, .unexpected (dash :: letters))
    else (some c, .unexpected (dash :: String.utf8EncodeChar c))

/-- The option of `c` with the name `n`. -/
def flagOf? (c : Subcommand) (n : Bytes) : Option Flag :=
  (Flag.ofSubcommand c).find? fun f => Bytes.ofString f.name == n

/-- Read the arguments after the command `c`. -/
def options (c : Subcommand) (o : Options) (pending : Pending) :
    List Bytes → Except Misuse Request
  | [] => do .ok (.perform c (← settle o pending))
  | a :: rest =>
    match shapeOf a with
    | .dashes =>
      match rest with
      | [] => do .ok (.perform c (← settle o pending))
      | x :: _ => .error (.unexpected x)
    | .long name value? =>
      match flagOf? c name with
      | some f => do
        let o ← settle o pending
        match value? with
        | none => options c o (some (f, none)) rest
        | some v => options c (← put o f v) none rest
      | none =>
        if name = Bytes.ofString "help" then
          match value? with
          | some v => .error (.unexpectedValue v "--help")
          | none => do
            let _ ← settle o pending
            .ok (.help (.command c))
        else .error (.unexpected (dash :: dash :: name))
    | .short letters =>
      match firstLetter letters with
      | (some 'h', _) => do
        let _ ← settle o pending
        .ok (.help (.command c))
      | (_, fault) => .error fault
    | .word =>
      match pending with
      | some (f, none) => options c o (some (f, some a)) rest
      | _ => .error (.unexpected a)

/-- The topic of a name. -/
def topicOf? (n : Bytes) : Option Topic :=
  if n = Bytes.ofString "run" then some (.command .run)
  else if n = Bytes.ofString "list" then some (.command .list)
  else if n = Bytes.ofString "help" then some .help
  else none

/-- Read the arguments after `help`. -/
def helpOn : List Bytes → Except Misuse Request
  | [] => .ok (.help .program)
  | n :: rest =>
    match topicOf? n with
    | none => .error (.unknownCommand n)
    | some topic =>
      match rest with
      | [] => .ok (.help topic)
      | x :: _ => .error (.unknownCommand x)

/-- An option of the program itself. -/
def programOption (name : Bytes) (value? : Option Bytes) : Except Misuse Request :=
  let known? : Option (Request × String) :=
    if name = Bytes.ofString "help" then some (.help .program, "--help")
    else if name = Bytes.ofString "version" then some (.version, "--version")
    else none
  match known?, value? with
  | none, _ => .error (.unexpected (dash :: dash :: name))
  | some (_, option), some v => .error (.unexpectedValue v option)
  | some (request, _), none => .ok request

/-- **What the arguments ask for.** -/
def parse : List Bytes → Except Misuse Request
  | [] => .error .noCommand
  | a :: rest =>
    match topicOf? a with
    | some (.command c) => options c {} none rest
    | some _ => helpOn rest
    | none =>
      match shapeOf a with
      | .dashes =>
        match rest with
        | [] => .error .noCommand
        | x :: _ =>
          if (topicOf? x).isSome then .error (.unexpected x) else .error (.unknownCommand x)
      | .long name value? => programOption name value?
      | .short letters =>
        match firstLetter letters with
        | (some 'h', _) => .ok (.help .program)
        | (some 'V', _) => .ok .version
        | (_, fault) => .error fault
      | .word => .error (.unknownCommand a)

end Arguments

end SuiteRunner
