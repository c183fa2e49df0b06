import Calculator.Calculation

/-!
# Reports

Results and environments as users and other programs read them: JSON with a fixed set of members,
and the listing of an environment in two columns.
-/

namespace Calculator

/-- A result as JSON. Numbers without a JSON literal are written as strings. -/
def Value.resultJson (v : Value) : String :=
  Json.object [("value", content)]
where
  content : String :=
    match v with
    | .number x => if Binary64.isFinite x then jsonNumber x else Json.string (plainNumber x)
    | v => v.json

/-- A failure as JSON: the cause and the stage. -/
def Failure.json (e : Failure) : String :=
  Json.object [("error", Json.string e.cause), ("stage", Json.string e.stage)]

namespace Environment

/-- The bindings of an environment as JSON. -/
def json (env : Environment) : String :=
  Json.object
    [("bindings", Json.object (env.bindings.entries.map fun (name, value) => (name, value.json)))]

/-- The width of the column of names: the greatest length in bytes of a name. -/
def nameWidth (env : Environment) : Nat :=
  (env.bindings.names.map String.utf8ByteSize).foldl max 0

/-- A binding in the listing, its name filled up with spaces to a width in characters. -/
def listingLine (width : Nat) (name : String) (value : Value) : String :=
  name ++ String.ofList (List.replicate (width - name.length) ' ') ++ " = " ++ value.text

/-- The bindings of an environment, one on a line, with the values below each other. -/
def listing (env : Environment) : String :=
  "\n".intercalate (env.bindings.entries.map fun (name, value) =>
    listingLine env.nameWidth name value)

end Environment

end Calculator
