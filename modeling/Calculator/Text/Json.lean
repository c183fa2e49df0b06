/-!
# JSON text

Compact JSON: no spaces, members in the order given. Strings escape the quote, the backslash and
the control characters below the space; everything else stands for itself.
-/

namespace Calculator.Json

/-- A character inside a JSON string. -/
def escape (c : Char) : List Char :=
  match c with
  | '"' => ['\\', '"']
  | '\\' => ['\\', '\\']
  | '\n' => ['\\', 'n']
  | '\r' => ['\\', 'r']
  | '\t' => ['\\', 't']
  | '\x08' => ['\\', 'b']
  | '\x0c' => ['\\', 'f']
  | c =>
    if c.toNat < 0x20 then
      ['\\', 'u', '0', '0', Nat.digitChar (c.toNat / 16), Nat.digitChar (c.toNat % 16)]
    else [c]

/-- A JSON string. -/
def string (s : String) : String :=
  String.ofList ('"' :: (s.toList.flatMap escape ++ ['"']))

/-- A JSON literal for a truth value. -/
def bool (b : Bool) : String := if b then "true" else "false"

/-- A JSON array of elements that are JSON already. -/
def array (elements : List String) : String :=
  "[" ++ ",".intercalate elements ++ "]"

/-- A JSON object of members whose values are JSON already. -/
def object (members : List (String × String)) : String :=
  "\x7b" ++ ",".intercalate (members.map fun (name, value) => string name ++ ":" ++ value) ++ "\x7d"

end Calculator.Json
