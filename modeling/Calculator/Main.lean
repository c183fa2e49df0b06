import Calculator.Program

/-!
# Entry point

Collects what the program needs from its surroundings, runs it and prints what it says. Only a
dialogue is answered while it goes on; everything else is decided before anything is printed.
-/

namespace Calculator.Main

/-- The variables of the process environment that matter. -/
def readVariables : IO (List (String × String)) :=
  ["HOME", "RUST_LOG", "FORMULA_RC", "FORMULA_BANNER", "FORMULA_STRICT",
    "FORMULA_STRICT_IDENTIFIERS", "FORMULA_STRICT_PARENS"].filterMapM fun name => do
    return (← IO.getEnv name).map (name, ·)

def readText (path : String) : IO (Except ReadError String) := do
  try
    let content ← IO.FS.readBinFile path
    match String.fromUTF8? content with
    | some text => return .ok text
    | none => return .error .notText
  catch
    | .noFileOrDirectory .. => return .error .notFound
    | .inappropriateType _ code _ =>
      return .error (if code = 20 then .notDirectory else .isDirectory)
    | e => return .error (.other (toString e))

def printLines (output : List Output) : IO Unit :=
  output.forM fun
    | .out line => IO.println line
    | .err line => IO.eprintln line

/-- Answer lines of input one by one. -/
partial def converse (s : Session) (input : IO.FS.Stream) : IO Unit := do
  let typed ← input.getLine
  if typed.isEmpty then return
  match Command.ofLine (String.join (Program.inputLines typed)) with
  | .stop => return
  | command =>
    let (s, output) := s.perform command
    printLines output
    converse s input

end Calculator.Main

open Calculator Calculator.Main in
def main (arguments : List String) : IO UInt32 := do
  let inv := Invocation.ofArguments ("formula" :: arguments)
  let settings ← readVariables
  let lookup name := List.lookup name settings
  let paths := inv.script.toList ++ (Program.startupPath? lookup).toList
  let files ← paths.mapM fun path => return (path, ← readText path)
  let around : Surroundings :=
    { lookup
      read := fun path => (List.lookup path files).getD (.error .notFound)
      input := []
      isTerminal := ← (← IO.getStdout).isTty }
  let (status, output) := Program.run inv around
  printLines output
  if Program.holdsDialogue inv then
    converse (Program.openDialogue inv around).1 (← IO.getStdin)
  return UInt32.ofNat status
