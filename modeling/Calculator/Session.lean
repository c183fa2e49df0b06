import Calculator.Help
import Calculator.Report
import Calculator.Text.Lines

/-!
# Sessions

A session keeps an environment and the settings under which lines are calculated. Lines reach it
in three ways:

* `loadStartup`  every line of a startup file; a failing line is reported and passed over
* `runScript`    every line of a script, up to the first that fails
* `interact`     the lines of a dialogue, up to the one that ends it; besides expressions they may
  be commands, which start with a point

Startup files and scripts may hold blank lines and comments. A comment starts with `#` and a space
or is a lone `#`; any other line that starts with `#` is an expression about a key.

The output is a list of lines, each for one of the two output streams, in the order of printing.
-/

namespace Calculator

inductive Output where
  | out (line : String)
  | err (line : String)
  deriving DecidableEq, Repr

/-- The text of the lines on standard output. -/
def Output.stdout (output : List Output) : String :=
  String.join (output.filterMap fun | .out line => some (line ++ "\n") | .err _ => none)

/-- The text of the lines on standard error. -/
def Output.stderr (output : List Output) : String :=
  String.join (output.filterMap fun | .err line => some (line ++ "\n") | .out _ => none)

/-- An environment and the settings under which lines are calculated. -/
structure Session where
  env : Environment
  strictness : Strictness
  /-- Whether results and failures are printed as JSON. -/
  json : Bool
  /-- Whether single evaluation steps are reported. -/
  tracing : Bool
  /-- Whether results are printed in color. -/
  color : Bool
  /-- The most detailed events to log, if any are. -/
  log? : Option Level
  deriving DecidableEq

namespace Session

/-- The log lines of events. -/
def log (s : Session) (events : List Event) : List Output :=
  match s.log? with
  | none => []
  | some .trace => events.map fun e => .err e.logLine
  | some .debug => (events.filter fun e => e.level = .debug).map fun e => .err e.logLine

/-- Calculate a line. The result comes with the session after it and the log of it. -/
def execute (s : Session) (line : String) : Except Failure Value × Session × List Output :=
  let c := calculate s.strictness s.tracing line s.env
  (c.result, { s with env := c.env }, s.log c.events)

def render (s : Session) : Except Failure Value → Output
  | .ok v => .out (if s.json then v.resultJson else if s.color then v.coloredText else v.text)
  | .error e => if s.json then .out e.json else .err ("Error: " ++ e.message)

/-- Whether a line of a startup file or script is blank or a comment. -/
def isSkipped (line : String) : Bool :=
  let content := Text.trimChars line.toList
  -- A lone `#` is a comment like one with a space behind it, and `#NAME` is not.
  content == [] || content == ['#'] || ['#', ' '].isPrefixOf content

/-! ### Startup files -/

/-- Calculate the lines of a startup file from line `number` on, and count those with a value. -/
def loadLines (source : String) (number : Nat) (s : Session) :
    List String → Session × Nat × List Output
  | [] => (s, 0, [])
  | line :: rest =>
    -- Skipped lines count for the numbers of the lines after them.
    if isSkipped line then loadLines source (number + 1) s rest
    else
      let (result, s, logged) := s.execute (Text.trim line)
      let (s, loaded, output) := loadLines source (number + 1) s rest
      match result with
      | .ok _ => (s, loaded + 1, logged ++ output)
      | .error e =>
        -- A line that fails keeps the bindings it made before, and loading goes on.
        let warning := "Warning: " ++ source ++ " line " ++ number.repr ++ ": " ++ e.message
        (s, loaded, logged ++ .err warning :: output)

/-- Calculate the lines of a startup file and count those with a value. -/
def loadStartup (s : Session) (source content : String) : Session × Nat × List Output :=
  loadLines source 1 s (Text.lines content)

/-! ### Scripts -/

/-- Calculate the lines of a script from line `number` on. The flag tells whether none failed. -/
def runLines (number : Nat) (s : Session) : List String → Session × Bool × List Output
  | [] => (s, true, [])
  | line :: rest =>
    if isSkipped line then runLines (number + 1) s rest
    else
      match s.execute (Text.trim line) with
      | (.ok v, s, logged) =>
        let (final, succeeded, output) := runLines (number + 1) s rest
        (final, succeeded, logged ++ s.render (.ok v) :: output)
      | (.error e, s, logged) =>
        -- The lines behind the one that fails are not reached.
        (s, false, logged ++ [.err ("Error at line " ++ number.repr ++ ": " ++ e.message)])

/-- Calculate the lines of a script up to the first that fails. -/
def runScript (s : Session) (content : String) : Session × Bool × List Output :=
  runLines 1 s (Text.lines content)

end Session

/-! ### Dialogues -/

/-- What a line of a dialogue asks for. -/
inductive Command where
  | blank
  | stop
  | help
  | list
  | reset
  /-- Show the postfix order of an expression. -/
  | showPostfix (text : String)
  | calculate (text : String)
  deriving DecidableEq, Repr

/-- The command that a line stands for. A name with a point in front that is not that of a command
belongs to an expression. -/
def Command.ofLine (line : String) : Command :=
  let content := Text.trimChars line.toList
  let name := String.ofList (content.takeWhile (· ≠ ' '))
  let argument := String.ofList ((content.dropWhile (· ≠ ' ')).drop 1)
  let text := String.ofList content
  if text = "" then blank
  else if text = "exit" ∨ text = "quit" then stop
  else if name = ".help" ∨ name = ".h" then help
  else if name = ".env" ∨ name = ".e" then list
  else if name = ".reset" ∨ name = ".r" then reset
  else if name = ".rpn" then showPostfix argument
  else calculate text

namespace Session

/-- The tokens of an expression and its postfix order, as far as it has them. -/
def showPostfix (s : Session) (text : String) : List Output :=
  -- The text is scanned on its own account first, so that its tokens are shown even if they have no
  -- postfix order.
  let tokens :=
    match Token.scan s.strictness text with
    | .ok tokens => s.log [.scanned tokens.length] ++ [.out ("tokens: " ++ Token.line tokens)]
    | .error _ => []
  let (result, events) := prepare s.strictness text
  let rpn :=
    match result with
    | .ok rpn => .out ("rpn:    " ++ Token.line rpn)
    | .error e => .err ("Error: " ++ e.message)
  tokens ++ s.log events ++ [rpn]

def perform (s : Session) : Command → Session × List Output
  | .blank | .stop => (s, [])
  | .help => (s, Help.interactive.map .out)
  | .list =>
    (s, if s.json then [.out s.env.json]
      else if s.env.bindings.entries = [] then [] else [.out s.env.listing])
  | .reset => ({ s with env := s.env.reset }, s.log [.reset s.env.defaults.size])
  | .showPostfix text => (s, s.showPostfix text)
  | .calculate text =>
    let (result, s, logged) := s.execute text
    (s, logged ++ [s.render result])

/-- Answer the lines of a dialogue up to the one that ends it. -/
def interact (s : Session) : List String → Session × List Output
  | [] => (s, [])
  | line :: rest =>
    match Command.ofLine line with
    -- Whatever stands behind the line that ends the dialogue is not read.
    | .stop => (s, [])
    | command =>
      let (s, output) := s.perform command
      let (final, more) := s.interact rest
      (final, output ++ more)

end Session

end Calculator
