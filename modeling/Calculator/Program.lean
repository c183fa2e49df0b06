import Calculator.Invocation
import Calculator.Session

/-!
# The program

What the program prints and the status it exits with, for its arguments and the surroundings it
runs in. Help comes before the version, either before any calculation, a command before a script,
and without either the program holds a dialogue on its standard input.
-/

namespace Calculator

/-- Why a file has no text. -/
inductive ReadError where
  | notFound
  | isDirectory
  | notDirectory
  | notText
  | other (reason : String)
  deriving DecidableEq, Repr

def ReadError.message : ReadError → String
  | notFound => "No such file or directory (os error 2)"
  | isDirectory => "Is a directory (os error 21)"
  | notDirectory => "Not a directory (os error 20)"
  | notText => "stream did not contain valid UTF-8"
  | other reason => reason

/-- What the program finds around it. -/
structure Surroundings where
  lookup : String → Option String
  read : String → Except ReadError String
  input : List String
  isTerminal : Bool

namespace Program

/-- The path of the startup file: a variable gives it, or it lies in the home directory. -/
def startupPath? (lookup : String → Option String) : Option String :=
  match lookup "FORMULA_RC", lookup "HOME" with
  | some path, _ => some path
  | none, some home =>
    if home = "" then some ".formularc"
    else if home.toList.getLast? = some '/' then some (home ++ ".formularc")
    else some (home ++ "/.formularc")
  | none, none => none

/-- The most detailed events to log. Of all the filters that `RUST_LOG` may hold, only the two that
name the program and a level are read. Any other text counts as no filter, also one by which events
would be logged. -/
def logLevel? (inv : Invocation) (lookup : String → Option String) : Option Level :=
  if inv.trace then some .trace
  else
    match lookup "RUST_LOG" with
    | some "formula=debug" => some .debug
    | some "formula=trace" => some .trace
    | _ => none

/-- A session as the command line sets it up, before its startup file. -/
def newSession (inv : Invocation) (lookup : String → Option String) : Session where
  env := .standard
  strictness := if inv.strict then .strict else .ofVariables lookup
  json := inv.json
  tracing := inv.trace
  color := false
  log? := logLevel? inv lookup

/-- A session after its startup file, and what loading that prints. A startup file that cannot be
read is passed over. -/
def openSession (inv : Invocation) (around : Surroundings) : Session × List Output :=
  let s := newSession inv around.lookup
  match if inv.noStartup then none else startupPath? around.lookup with
  | none => (s, [])
  | some path =>
    match around.read path with
    -- Nothing is said about a startup file that is missing or unreadable.
    | .error _ => (s, [])
    | .ok content =>
      let (s, loaded, output) := s.loadStartup path content
      (s, output ++ s.log [.startup path loaded])

def runCommand (inv : Invocation) (around : Surroundings) (text : String) : Nat × List Output :=
  let (s, opening) := openSession inv around
  let (result, s, logged) := s.execute text
  -- Loading the startup file has no part in the exit status.
  (if result.isOk then 0 else 1, opening ++ logged ++ [s.render result])

/-- Run a script. It is read before anything else happens. -/
def runScript (inv : Invocation) (around : Surroundings) (path : String) : Nat × List Output :=
  match around.read path with
  | .error e => (1, [.err ("Error reading " ++ path ++ ": " ++ e.message)])
  | .ok content =>
    -- An unreadable script ends the program before the startup file is looked at.
    let (s, opening) := openSession inv around
    let (_, succeeded, output) := s.runScript content
    (if succeeded then 0 else 1, opening ++ output)

/-- The lines that are typed on standard input. -/
def inputLines (input : String) : List String :=
  (Text.splitLines input.toList).map fun line => String.ofList (Text.eraseBackspaces line)

/-- A session at the start of a dialogue, and what is printed before the first line. -/
def openDialogue (inv : Invocation) (around : Surroundings) : Session × List Output :=
  let (s, opening) := openSession inv around
  let greeting := if (around.lookup "FORMULA_BANNER").isSome then Help.banner else []
  -- Colors are for people: a terminal, and no JSON.
  ({ s with color := !inv.json && around.isTerminal }, opening ++ greeting.map .out)

def runDialogue (inv : Invocation) (around : Surroundings) : Nat × List Output :=
  let (s, opening) := openDialogue inv around
  (0, opening ++ (s.interact around.input).2)

/-- Whether the program answers lines of standard input. -/
def holdsDialogue (inv : Invocation) : Bool :=
  !inv.help && !inv.version && inv.command.isNone && inv.script.isNone

/-- The exit status of the program and what it prints. -/
def run (inv : Invocation) (around : Surroundings) : Nat × List Output :=
  if inv.help then (0, Help.commandLine.map .out)
  else if inv.version then (0, [.out Help.versionLine])
  else
    match inv.command, inv.script with
    -- A command hides a script.
    | some text, _ => runCommand inv around text
    | none, some path => runScript inv around path
    | none, none => runDialogue inv around

end Program

end Calculator
