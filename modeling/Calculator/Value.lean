import Calculator.Number.Style
import Calculator.Text.Json

/-!
# Values

What an expression evaluates to: a number, a truth value, or a name that is used as a key. Truth
values count as one and zero where a number is wanted; keys do not.
-/

namespace Calculator

/-- The result of an expression, or an operand on the way to it. -/
inductive Value where
  | number (value : Float)
  | bool (value : Bool)
  /-- A name that stands for itself and is never looked up. -/
  | key (name : String)
  deriving DecidableEq, Repr

namespace Value

inductive Kind where
  | number
  | boolean
  | key
  deriving DecidableEq, Repr

/-- The English name of a kind. -/
def Kind.name : Kind → String
  | number => "number"
  | boolean => "boolean"
  | key => "key"

def kind : Value → Kind
  | number _ => .number
  | bool _ => .boolean
  | key _ => .key

/-- A value where a number is wanted. -/
def toNumber? : Value → Option Float
  | number x => some x
  | bool b => some (if b then 1 else 0)
  | key _ => none

/-- Whether a value counts as true. Of the numbers, zero and `NaN` do not. -/
def isTruthy : Value → Bool
  | number x => x != 0 && !x.isNaN
  | bool b => b
  -- A name counts as true, whatever is bound to it.
  | key _ => true

/-- Whether two values are equal for a program: of the same kind and with the same content, where
numbers compare as such, so that zero equals its negative and `NaN` differs from itself. -/
def same : Value → Value → Bool
  | number x, number y => x == y
  | bool a, bool b => a == b
  | key m, key n => m == n
  | _, _ => false

def isKey : Value → Bool
  | key _ => true
  | _ => false

/-- The text of a value; a key has its sigil in front. -/
def text : Value → String
  | number x => plainNumber x
  | bool b => Json.bool b
  | key name => "#" ++ name

/-- The text of a value in the terminal color of its kind. -/
def coloredText (v : Value) : String :=
  "\x1b[" ++ color ++ "m" ++ v.text ++ "\x1b[0m"
where
  color : String :=
    match v.kind with
    | .number => "35"
    | .boolean => "34"
    | .key => "33"

/-- A value as JSON. A key is its bare name, and a number that is not finite is null. -/
def json : Value → String
  | number x => jsonNumber x
  | bool b => Json.bool b
  | key name => Json.string name

end Value

end Calculator
