import Calculator.Token
import Calculator.Value

/-!
# Events

What the stages report of their work, in the order in which it happens. An event is shown as its
level, its target, a message and named fields.
-/

namespace Calculator

/-- How detailed an event is. -/
inductive Level where
  | debug
  | trace
  deriving DecidableEq, Repr

/-- The name of a level in a log line. -/
def Level.name : Level → String
  | debug => "DEBUG"
  | trace => "TRACE"

inductive Event where
  /-- A text was split into this many tokens. -/
  | scanned (count : Nat)
  /-- Tokens were put into postfix order. -/
  | converted (rpn : List Token)
  | evaluating (rpn : List Token)
  /-- A token was evaluated; the stack then had a depth and these values on top. -/
  | step (token : Token) (depth : Nat) (top : List Value)
  | write (name : String) (value : Value)
  /-- The bindings went back to the defaults, of which there are this many. -/
  | reset (defaults : Nat)
  /-- A startup file was read and this many of its lines had a value. -/
  | startup (path : String) (loaded : Nat)
  deriving DecidableEq

namespace Event

/-- Whether an event reports a single evaluation step. -/
def isStep : Event → Bool
  | step .. => true
  | _ => false

/-- The level of an event: single steps are details, everything else is not. -/
def level (e : Event) : Level := if e.isStep then .trace else .debug

/-- The part of the program that an event comes from. -/
def target : Event → String
  | scanned _ => "formula::lexer"
  | converted _ => "formula::parser"
  | evaluating _ | step .. => "formula::eval"
  | write .. | reset _ => "formula::env"
  | startup .. => "formula::rcfile"

/-- What an event says. -/
def message : Event → String
  | scanned _ => "scanned expression"
  | converted _ => "converted to postfix"
  | evaluating _ => "evaluating"
  | step .. => "step"
  | write .. => "environment write"
  | reset _ => "environment reset"
  | startup .. => "rc file loaded"

/-- The named fields of an event. -/
def fields : Event → List (String × String)
  | scanned count => [("tokens", count.repr)]
  | converted rpn | evaluating rpn => [("rpn", Token.line rpn)]
  | step token depth top =>
    [("token", token.text), ("depth", depth.repr), ("top", " ".intercalate (top.map Value.text))]
  | write name value => [("name", name), ("value", value.text)]
  | reset defaults => [("defaults", defaults.repr)]
  | startup path loaded => [("path", path), ("loaded", loaded.repr)]

/-- An event as a line of a log. -/
def logLine (e : Event) : String :=
  e.level.name ++ " " ++ e.target ++ ": " ++
    " ".intercalate (e.message :: e.fields.map fun (name, value) => name ++ "=" ++ value)

end Event

end Calculator
