/-!
# Command lines

What the arguments of the program ask for. Everything after `-c` belongs to the expression, even
what looks like a switch; of several scripts the last one counts; other arguments that start with
a hyphen and are no switch are ignored.
-/

namespace Calculator

/-- What a command line asks for. -/
structure Invocation where
  command : Option String
  script : Option String
  help : Bool
  version : Bool
  trace : Bool
  strict : Bool
  json : Bool
  noStartup : Bool
  deriving DecidableEq, Repr

namespace Invocation

def none : Invocation := ⟨.none, .none, false, false, false, false, false, false⟩

/-- A single argument that is not the start of an expression. -/
def addArgument (inv : Invocation) (argument : String) : Invocation :=
  match argument with
  | "--trace" => { inv with trace := true }
  | "--strict" => { inv with strict := true }
  | "--json" => { inv with json := true }
  | "--no-rc" => { inv with noStartup := true }
  | "--help" | "-h" => { inv with help := true }
  | "--version" | "-V" => { inv with version := true }
  | path => if path.toList.head? = some '-' then inv else { inv with script := some path }

/-- The arguments after the name of the program, added to an invocation from left to right. -/
def addArguments (inv : Invocation) : List String → Invocation
  | [] => inv
  | "-c" :: argument :: rest => { inv with command := some (" ".intercalate (argument :: rest)) }
  | argument :: rest => (inv.addArgument argument).addArguments rest

/-- What a list of arguments asks for. The first one is the name of the program. -/
def ofArguments (arguments : List String) : Invocation := none.addArguments (arguments.drop 1)

end Invocation

end Calculator
