import SuiteRunner.Machine.Image
import SuiteRunner.Machine.Shell.Builtin
import SuiteRunner.Shell.Reader

/-!
# Running scripts

What the commands of a script do on a machine. A command that goes on for more than `fuel` steps
never ends: the process stalls.

* `Machine.runCommand`: one command;
* `Machine.runText`: a script, line by line;
* `Machine.runImage`: a program, which may be the shell itself.
-/

namespace SuiteRunner.Machine

open SuiteRunner.Shell
open Act

/-- What a shell is started for. -/
inductive Source where
  /-- A script as an argument. -/
  | text (cs : List Char)
  /-- A script in a file. -/
  | file (path : List Char)
  /-- The input. -/
  | input

/-- What the arguments of a shell ask for: the script, its name, its arguments, and whether a
failure ends it. None if there is no such option, or no script. -/
def shellArguments (self : List Char) (strict command : Bool) :
    List (List Char) → Option (Source × List Char × List (List Char) × Bool)
  | [] => if command then none else some (.input, self, [], strict)
  | a :: rest =>
    match a with
    | '-' :: c :: cs =>
      if c :: cs = ['-'] then
        match rest with
        | [] => if command then none else some (.input, self, [], strict)
        | s :: args => some (plain s args)
      else if (c :: cs).all fun o => "aefnuvxbimsICEVc".toList.contains o then
        shellArguments self (strict || (c :: cs).contains 'e') (command || (c :: cs).contains 'c')
          rest
      else none
    | _ => some (plain a rest)
where
  /-- The first argument that is no option says which script is meant. -/
  plain (s : List Char) (args : List (List Char)) :
      Source × List Char × List (List Char) × Bool :=
    if command then
      match args with
      | name :: args => (.text s, name, args, strict)
      | [] => (.text s, self, [], strict)
    else (.file s, s, args, strict)

/-- What a process is when a shell starts in it. -/
def asShell (name : List Char) (arguments : List (List Char)) (strict : Bool) (p : Process) :
    Process :=
  { p with
    name, arguments, strict
    bindings := p.bindings.filter fun v => p.exported.contains v.1
    functions := []
    status := 0
    jobs := []
    line := 1 }

/-- A word has commands in it, whose status is that of the word. -/
def hasOutput (w : Word) : Bool :=
  w.any fun
    | .output .. => true
    | _ => false

/-- A failure ends the process, if it is strict and the status is not asked for. -/
def settle (tested : Bool) (status : Nat) : Act Nat := do
  setProcess fun p => { p with status }
  if status != 0 && !tested && (← process).strict then throw (.exit status)
  return status

mutual

/-- The pieces of a part of a word. -/
def piecesOfPart : Nat → Part → Act (List Piece)
  | 0, _ => stall
  | fuel + 1, part => do
    match part with
    | .char c quoted => return [.mark ⟨c, quoted⟩]
    | .nothing => return [.hold]
    | .value name quoted => return parameterPieces (← process) name quoted
    | .changed name change word quoted =>
      let p ← process
      let value? := valueOf? p name
      let isSet := fun orEmpty : Bool => value?.isSome && !(orEmpty && value? == some [])
      match change with
      | .otherwise orEmpty =>
        if isSet orEmpty then return parameterPieces p name quoted
        else return (if quoted then [.hold] else []) ++ (← piecesOfWord fuel word)
      | .instead orEmpty =>
        if isSet orEmpty then
          return (if quoted then [.hold] else []) ++ (← piecesOfWord fuel word)
        else return piecesOf quoted []
      | .cut atEnd longest =>
        let pattern := Pattern.ofMarks (marksOf (← piecesOfWord fuel word))
        let value := value?.getD []
        return piecesOf quoted
          (if atEnd then pattern.cutEnd longest value else pattern.cutStart longest value)
    | .output body quoted =>
      let (status, bytes) ← collect fun sink => isolated do
        setProcess fun p => { p with out := sink }
        runAll fuel false body
      setProcess fun p => { p with status }
      let text := (charsOf bytes).filter (· != '\x00')
      return piecesOf quoted ((text.reverse.dropWhile (· == '\n')).reverse)

/-- The pieces of a word. -/
def piecesOfWord : Nat → Word → Act (List Piece)
  | 0, _ => stall
  | fuel + 1, w => do return (← w.mapM (piecesOfPart fuel)).flatten

/-- The text that a word is where it is one field in any case. -/
def textOfWord : Nat → Word → Act (List Char)
  | 0, _ => stall
  | fuel + 1, w => do return textOf (marksOf (← piecesOfWord fuel w))

/-- The fields that words are. -/
def fieldsOfWords : Nat → List Word → Act (List (List Char))
  | 0, _ => stall
  | fuel + 1, ws => do
    let fields ← ws.mapM fun w => do
      let ps ← piecesOfWord fuel w
      return (fieldsOf ps).flatMap (namesFor (← tree))
    return fields.flatten

/-- Set the streams of the process, one redirection after another, until one is refused. -/
def redirectAll : Nat → List Redirection → Act Bool
  | 0, _ => stall
  | _ + 1, [] => return true
  | fuel + 1, r :: rs => do
    let done ← match r with
      | .file stream opening target => do
        redirectTo stream opening (← textOfWord fuel target)
      | .copy stream source => duplicate stream source
    if done then redirectAll fuel rs else return false

/-- Commands one after another. -/
def runAll : Nat → (tested : Bool) → Script → Act Nat
  | 0, _, _ => stall
  | fuel + 1, tested, cs => do
    cs.forM fun c => do
      let _ ← runCommand fuel tested c
    return (← process).status

/-- A pipeline: each command in a process of its own. -/
def runPipeline : Nat → List Command → Act Nat
  | 0, _ => stall
  | _ + 1, [] => return 0
  | fuel + 1, [c] => isolated (runCommand fuel true c)
  | fuel + 1, c :: cs => do
    let (_, bytes) ← collect fun sink => isolated do
      setProcess fun p => { p with out := sink }
      runCommand fuel true c
    isolated do
      setProcess fun p => { p with input := bytes }
      runPipeline fuel cs

/-- A round of a loop: whether another one follows, and the status. -/
def runRound : Nat → Script → Act (Bool × Nat)
  | 0, _ => stall
  | fuel + 1, body => do
    let loops := (← process).loops
    setProcess fun p => { p with loops := loops + 1 }
    let round := do return (true, ← runAll fuel false body)
    let caughtRound := tryCatch round fun
      | .leave n => if n ≤ 1 then pure (false, 0) else throw (.leave (n - 1))
      | .again n => if n ≤ 1 then pure (true, 0) else throw (.again (n - 1))
      | stop => throw stop
    ending caughtRound (setProcess fun p => { p with loops })

/-- A loop with a condition; `status` is that of the last round. -/
def runLoop : Nat → (untilSuccess : Bool) → (condition body : Script) → (status : Nat) → Act Nat
  | 0, _, _, _, _ => stall
  | fuel + 1, untilSuccess, condition, body, status => do
    let s ← runAll fuel true condition
    if (s == 0) == untilSuccess then return status
    else
      let (on, status) ← runRound fuel body
      if on then runLoop fuel untilSuccess condition body status else return status

/-- A loop over words. -/
def runEach : Nat → (name : List Char) → List (List Char) → Script → (status : Nat) → Act Nat
  | 0, _, _, _, _ => stall
  | _ + 1, _, [], _, status => return status
  | fuel + 1, name, w :: ws, body, _ => do
    setProcess fun p => assign p name w
    let (on, status) ← runRound fuel body
    if on then runEach fuel name ws body status else return status

/-- The first arm of a branch whose condition succeeds. -/
def runArms : Nat → (tested : Bool) → List (Script × Script) → Script → Act Nat
  | 0, _, _, _ => stall
  | fuel + 1, tested, [], otherwise => do
    setProcess fun p => { p with status := 0 }
    runAll fuel tested otherwise
  | fuel + 1, tested, (condition, body) :: arms, otherwise => do
    if (← runAll fuel true condition) = 0 then runAll fuel tested body
    else runArms fuel tested arms otherwise

/-- The first arm of a choice with a pattern that the text matches. -/
def runChoice : Nat → (tested : Bool) → List Char → List (List Word × Script) → Act Nat
  | 0, _, _, _ => stall
  | _ + 1, _, _, [] => return 0
  | fuel + 1, tested, text, (patterns, body) :: arms => do
    let found ← patterns.anyM fun w => do
      return (Pattern.ofMarks (marksOf (← piecesOfWord fuel w))).fits text
    if found then
      setProcess fun p => { p with status := 0 }
      runAll fuel tested body
    else runChoice fuel tested text arms

/-- A command that a name and arguments are. -/
def runWords : Nat → (tested : Bool) → (name : List Char) → List (List Char) → Act Nat
  | 0, _, _, _ => stall
  | fuel + 1, tested, name, arguments => do
    let p ← process
    match String.ofList name, arguments with
    | "exit", _ => throw (.exit (← statusOf name arguments))
    | "return", _ => throw (.back (← statusOf name arguments))
    | "break", _ =>
      if p.loops = 0 then return 0 else throw (.leave (min p.loops (levelsOf arguments)))
    | "continue", _ =>
      if p.loops = 0 then return 0 else throw (.again (min p.loops (levelsOf arguments)))
    | "eval", _ => runText fuel tested ⟨Utility.united arguments, p.line⟩
    | "exec", [] => return 0
    | "exec", program :: rest =>
      match find (← tree) (pathOf program) (rest.map bytesOf) with
      | .ok image => throw (.exit (← runImage fuel image))
      | .error cause =>
        complainInScript
          ("exec: ".toList ++ program ++ ": ".toList ++ reasonOr "not found" cause)
        throw (.exit (if cause = .noEntry then 127 else 126))
    | ".", script :: _ =>
      match (← tree).read (pathOf script) with
      | .ok content => runText fuel tested ⟨charsOf content, 1⟩
      | .error _ =>
        complainInScript (".: cannot open ".toList ++ script ++ ": No such file".toList)
        throw (.exit 2)
    | "command", program :: rest => runWords fuel tested program rest
    | _, _ =>
      match p.functions.lookup name with
      | some body =>
        setProcess fun q => { q with arguments }
        ending
          (tryCatch (runCommand fuel tested body) fun
            | .back status => pure status
            | stop => throw stop)
          (setProcess fun q => { q with arguments := p.arguments })
      | none =>
        match Utility.named? (ownCommands ++ Utility.known) name with
        | some utility => utility arguments
        | none => runProgram fuel name arguments

/-- A program in a process of its own. -/
def runProgram : Nat → (name : List Char) → List (List Char) → Act Nat
  | 0, _, _ => stall
  | fuel + 1, name, arguments => do
    match find (← tree) (pathOf name) (arguments.map bytesOf) with
    | .ok image => spawned (runImage fuel image)
    | .error cause =>
      if cause = .noEntry ∨ cause = .notDirectory then
        complainInScript (name ++ ": not found".toList)
        return 127
      else if cause = .notExecutable then
        spawned (runImage fuel ⟨"sh".toList, bytesOf name :: (name :: arguments).map bytesOf⟩)
      else
        complainInScript (name ++ ": ".toList ++ (reason cause).toList)
        return 126

/-- A simple command. -/
def runSimple : Nat → (tested : Bool) → List (List Char × Word) → List Word → List Redirection →
    Act Nat
  | 0, _, _, _, _ => stall
  | fuel + 1, tested, assignments, words, redirections => do
    let fields ← fieldsOfWords fuel words
    let values ← assignments.mapM fun (name, w) => do return (name, ← textOfWord fuel w)
    let put := fun p : Process => values.foldl (fun p v => assign p v.1 v.2) p
    match fields with
    | [] =>
      let done ← keepingStreams true (redirectAll fuel redirections)
      setProcess put
      if !done then return 2
      else if (assignments.map (·.2) ++ words).any hasOutput then return (← process).status
      else return 0
    | ['e', 'x', 'e', 'c'] :: [] =>
      if ← redirectAll fuel redirections then return 0 else throw (.exit 2)
    | name :: arguments =>
      let before ← process
      keepingStreams (redirections.any readsAnew) do
        if ← redirectAll fuel redirections then
          setProcess fun p => { put p with exported := values.map (·.1) ++ p.exported }
          let status ← runWords fuel tested name arguments
          if !isSpecial name && !values.isEmpty then
            setProcess fun p =>
              { p with bindings := before.bindings, exported := before.exported }
          return status
        else if isSpecial name then throw (.exit 2)
        else return 2

/-- **One command.** `tested` says that somebody asks for its status. -/
def runCommand : Nat → (tested : Bool) → Command → Act Nat
  | 0, _, _ => stall
  | fuel + 1, tested, c => do
    match c with
    | .simple line assignments words redirections =>
      setProcess fun p => { p with line }
      settle tested (← runSimple fuel tested assignments words redirections)
    | .sequence body => runAll fuel tested body
    | .subshell body => settle tested (← isolated (runAll fuel tested body))
    | .redirected c redirections =>
      keepingStreams (redirections.any readsAnew) do
        if ← redirectAll fuel redirections then runCommand fuel tested c else settle tested 2
    | .pipeline cs => settle tested (← runPipeline fuel cs)
    | .negation c => settle true (if (← runCommand fuel true c) = 0 then 1 else 0)
    | .both first second =>
      let status ← runCommand fuel true first
      if status = 0 then runCommand fuel tested second else return status
    | .either first second =>
      let status ← runCommand fuel true first
      if status = 0 then return 0 else runCommand fuel tested second
    | .background c =>
      detached (runCommand fuel true c)
      return 0
    | .branch arms otherwise => runArms fuel tested arms otherwise
    | .loop untilSuccess condition body =>
      settle tested (← runLoop fuel untilSuccess condition body 0)
    | .each name words? body =>
      let words ← match words? with
        | some ws => fieldsOfWords fuel ws
        | none => do pure (← process).arguments
      settle tested (← runEach fuel name words body 0)
    | .choice word arms => settle tested (← runChoice fuel tested (← textOfWord fuel word) arms)
    | .function name body =>
      setProcess fun p =>
        { p with functions := (name, body) :: p.functions.filter fun f => f.1 != name }
      settle tested 0

/-- **A script, line by line.** A fault in a line ends it there. -/
def runText : Nat → (tested : Bool) → Cursor → Act Nat
  | 0, _, _ => stall
  | fuel + 1, tested, k => do
    let reading := readScript k
    reading.lines.forM fun script => do
      let _ ← runAll fuel tested script
    match reading.fault? with
    | none => return (← process).status
    | some line =>
      setProcess fun p => { p with line }
      complainInScript "Syntax error".toList
      throw (.exit 2)

/-- **A program**, in the process that there is. -/
def runImage : Nat → Image → Act Nat
  | 0, _ => stall
  | fuel + 1, image => do
    let self := charsOf (image.arguments.headD [])
    let arguments := image.arguments.tail.map charsOf
    if image.program = finderName.toList then
      match arguments with
      | [] => return 0
      | program :: rest =>
        match find (← tree) (pathOf program) (rest.map bytesOf) with
        | .ok image => runImage fuel image
        | .error cause =>
          complain (s!"{finderName}: '".toList ++ program ++ s!"': {reason cause}".toList)
          return if cause = .noEntry then 127 else 126
    else if shellNames.any fun n => n.toList == image.program then
      match shellArguments self false false arguments with
      | none =>
        complain (self ++ ": 0: Illegal option".toList)
        return 2
      | some (source, name, arguments, strict) =>
        setProcess (asShell name arguments strict)
        match source with
        | .text cs => caught (runText fuel false ⟨cs, 1⟩)
        | .input =>
          let p ← process
          setProcess fun p => { p with input := [] }
          caught (runText fuel false ⟨charsOf p.input, 1⟩)
        | .file path =>
          match (← tree).read (pathOf path) with
          | .ok content => caught (runText fuel false ⟨charsOf content, 1⟩)
          | .error .isDirectory => return 0
          | .error cause =>
            complain (self ++ ": 0: cannot open ".toList ++ path ++ ": ".toList ++
              reasonOr "No such file" cause)
            return 2
    else
      match Utility.named? Utility.all image.program with
      | some utility => utility arguments
      | none => return 127

end

end SuiteRunner.Machine
