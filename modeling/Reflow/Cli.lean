import Reflow.Files
import Reflow.Json.Read
import Reflow.Session.Basic
/-!
# The command line

`run FILE` runs a program, one subtree for each statement, and lists its variables; with `--json`
they are written as one JSON object. `repl` takes statements and commands line by line. Either reads
its options from the file given by `--options`. Flags without a command only show the usage, after
the options were found in order.

## Main definitions

* `Invocation.ofArgs?`: what the arguments ask for.
* `runProgram`: the output of `run`.
* `replLine`: the answer to one line.
* `Invocation.start`: the reading of the files, in any surroundings that can open one.
* `commandLine`: the output for given arguments on a disk.
-/

namespace Reflow

/-- What is printed, and the exit code. -/
structure Output where
  code : Nat := 0
  stdout : String := ""
  stderr : String := ""

namespace Output

/-- One output after the other; the exit code is that of the second. -/
def append (a b : Output) : Output := ⟨b.code, a.stdout ++ b.stdout, a.stderr ++ b.stderr⟩

/-- Lines for the user. -/
def lines (ls : List String) : Output := { stdout := String.join (ls.map (· ++ "\n")) }

/-- Lines about problems. -/
def problems (ls : List String) : Output := { stderr := String.join (ls.map (· ++ "\n")) }

/-- The output of a program that cannot go on. -/
def failure (context cause : String) : Output :=
  { problems ["Error: " ++ context, "", "Caused by:", "    " ++ cause] with code := 1 }

/-- The lines of an error with its diagnostics. -/
def ofError (e : SessionError) : Output :=
  problems (e.message :: e.diagnostics.map fun d => "  " ++ d.text)

/-- The lines of some warnings. -/
def ofWarnings (warnings : List String) : Output := problems (warnings.map ("warning: " ++ ·))

end Output

/-- The commands. -/
inductive Command
  | run (file : String) (json : Bool)
  | repl
  /-- Shows the usage. -/
  | help
  deriving Repr, DecidableEq

/-- What the arguments ask for. -/
structure Invocation where
  command : Command
  /-- The file with the options. -/
  optionsFile : Option String
  deriving Repr, DecidableEq

/-- The arguments read so far. -/
structure Arguments where
  command : Option String := none
  file : Option String := none
  json : Bool := false
  optionsFile : Option String := none
  /-- Whether the options were given since the command. -/
  optionsGiven : Bool := false
  /-- Whether logs in JSON were asked for at all, and since the command. -/
  log : Bool := false
  logGiven : Bool := false

namespace Arguments

/-- Takes the name of the file with the options; after the command it may be given once more. -/
def withOptions? (a : Arguments) (file : String) : Option Arguments :=
  if a.optionsGiven || file.isEmpty then none
  else some { a with optionsFile := some file, optionsGiven := true }

/-- Takes the wish for logs in JSON; after the command it may be given once more. -/
def withLog? (a : Arguments) : Option Arguments :=
  if a.logGiven then none else some { a with log := true, logGiven := true }

/-- Takes the file to run. -/
def withFile? (a : Arguments) (file : String) : Option Arguments :=
  if a.command = some "run" ∧ a.file = none ∧ !file.isEmpty then some { a with file := some file }
  else none

/-- Takes an argument that is no flag: the command, or the file to run. -/
def withWord? (a : Arguments) (word : String) : Option Arguments :=
  match a.command with
  | none =>
    if word = "run" ∨ word = "repl" then
      some { a with command := some word, optionsGiven := false, logGiven := false }
    else none
  | some _ => a.withFile? word

/-- Whether a word is a flag; a lone dash is none. -/
def isFlag (word : String) : Bool := "-".isPrefixOf word && word != "-"

/-- Takes all arguments; after a double dash none of them is a flag or a command. -/
def take? : List String → Arguments → Option Arguments
  | [], a => some a
  | "--log-json" :: rest, a => a.withLog?.bind (take? rest)
  | "--json" :: rest, a =>
    if a.command = some "run" ∧ !a.json then take? rest { a with json := true } else none
  | "--options" :: file :: rest, a =>
    if isFlag file then none else (a.withOptions? file).bind (take? rest)
  | "--" :: rest, a => rest.foldlM withFile? a
  | word :: rest, a =>
    let name := "--options="
    if name.isPrefixOf word then
      (a.withOptions? (word.drop name.length).toString).bind (take? rest)
    else if isFlag word then none
    else (a.withWord? word).bind (take? rest)

end Arguments

/-- What the arguments ask for, if they are in order. -/
def Invocation.ofArgs? (args : List String) : Option Invocation := do
  let a ← Arguments.take? args {}
  match a.command with
  | some "run" => return ⟨.run (← a.file) a.json, a.optionsFile⟩
  | some _ => return ⟨.repl, a.optionsFile⟩
  | none => if a.log || a.optionsFile.isSome then return ⟨.help, a.optionsFile⟩ else none

/-- The lines on how to call the program. -/
def usageLines : List String :=
  ["Usage: reflow [--options FILE] [--log-json] run FILE [--json]",
    "       reflow [--options FILE] [--log-json] repl"]

/-- The output of a call with wrong arguments. -/
def usage : Output := { Output.problems usageLines with code := 2 }

/-- The additions that bring a program into an empty session: each statement is a subtree, and its
place is the subtree's number. -/
def batchOfProgram (program : List Statement) : Batch :=
  .ofEdits { added := program.mapIdx fun i s => ⟨.ofNat i, [s]⟩ }

/-- The variables as one JSON object over several lines, sorted by name. -/
def globalsText (globals : List (String × Snapshot)) : String :=
  (Json.sorted (.obj (globals.map fun (name, v) => (name, v.toJson)))).writeIndented 0

/-- The output of a program that is run. -/
def runProgram (options : Options) (program : List Statement) (json : Bool) : Output :=
  let session : Session := { options := options }
  match session.answer (Session.updateGraph (batchOfProgram program)) with
  | (.error e, _) => { Output.ofError e with code := 1 }
  | (.ok report, session) =>
    let listing := if json then Output.lines [globalsText session.globals]
      else { stdout := session.dump }
    (Output.ofWarnings report.warnings).append listing

/-- The answer to statements: their warnings, and the variables that changed. -/
def replCode (s : Session) (code : String) : Output × Session :=
  match s.answer (Session.updateCode code) with
  | (.error e, s) => (.ofError e, s)
  | (.ok report, s) =>
    let changed := report.modifiedSymbols.filterMap fun name =>
      (s.query (.named name)).map fun v => name ++ " = " ++ v.text
    ((Output.ofWarnings report.warnings).append (.lines changed), s)

/-- The answer to a query. -/
def replQuery (s : Session) (name : String) : Output :=
  match s.query (.named name) with
  | some v => .lines [v.text]
  | none => .lines [name ++ " is not defined"]

/-- A text without the blanks around it. -/
def trimText (s : String) : String := String.ofList (Text.trim s.toList)

/-- The answer to one line, and the session after it; none if the line ends the conversation. -/
def replLine (s : Session) (line : String) : Option (Output × Session) :=
  let command := ":query "
  match trimText line with
  | "" => some ({}, s)
  | ":quit" => none
  | ":q" => none
  | ":dump" => some ({ stdout := s.dump }, s)
  | line =>
    if command.isPrefixOf line then
      some (replQuery s (trimText (line.drop command.length).toString), s)
    else some (replCode s line)

/-- The output of a conversation. -/
def replLines (s : Session) : List String → Output
  | [] => {}
  | line :: rest =>
    match replLine s line with
    | none => {}
    | some (output, s) => output.append (replLines s rest)

/-- A session that takes statements. -/
def replSession (options : Options) : Session :=
  { options := { options with interpreterMode := true } }

/-- The text of a file, or the output of a program that could not read it. -/
def textOf (file : String) (text : Except FileError String) : Except Output String :=
  text.mapError fun e => .failure ("reading " ++ file) e.message

/-- The options in a file. -/
def optionsOf (file : String) (text : Except FileError String) : Except Output Options := do
  match Options.read? (← textOf file text) with
  | some options => return options
  | none => throw (.failure ("parsing options in " ++ file) "the options are malformed")

/-- The program in a file. -/
def programOf (file : String) (text : Except FileError String) :
    Except Output (List Statement) := do
  (parseProgram (← textOf file text)).mapError fun e => .failure ("parsing " ++ file) e.message

/-- What an invocation comes to after its files were read. -/
inductive Start
  | finished (output : Output)
  /-- Lines of the standard input are to be answered from here on. -/
  | conversation (session : Session)

/-- What an invocation with options comes to, where `read` opens files. -/
def Command.start {m : Type → Type} [Monad m] (command : Command) (options : Options)
    (read : String → m (Except FileError String)) : m Start := do
  match command with
  | .help => return .finished (.lines usageLines)
  | .repl => return .conversation (replSession options)
  | .run file json =>
    match programOf file (← read file) with
    | .error output => return .finished output
    | .ok program =>
      return .finished (runProgram { options with rootModule := some ⟨file⟩ } program json)

/-- What an invocation comes to, where `read` opens files: the options are read before the
program. -/
def Invocation.start {m : Type → Type} [Monad m] (i : Invocation)
    (read : String → m (Except FileError String)) : m Start := do
  match i.optionsFile with
  | none => i.command.start {} read
  | some file =>
    match optionsOf file (← read file) with
    | .error output => return .finished output
    | .ok options => i.command.start options read

/-- The output for some arguments on a disk. -/
def commandLine (args : List String) (disk : Disk) : Output :=
  match Invocation.ofArgs? args with
  | none => usage
  | some i =>
    match (i.start Disk.read).run disk with
    | (.finished output, _) => output
    | (.conversation session, disk) => replLines session (disk.input.splitOn "\n")

end Reflow
