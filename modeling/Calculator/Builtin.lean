import Calculator.EvalError

/-!
# Built-in functions

The four functions, each with one number of arguments. Arguments come in the order in which the
call lists them. A call has a value and may ask for a binding; it changes nothing by itself.
-/

namespace Calculator

inductive Builtin where
  /-- `MAX(a, b)` -/
  | max
  /-- `SQRT(a)` -/
  | sqrt
  /-- `IF(p, a, b)` -/
  | choose
  /-- `SET(#NAME, v)` -/
  | assign
  deriving DecidableEq, Repr

/-- What a call results in: its value, and the binding it makes if it makes one. -/
structure CallResult where
  value : Value
  write? : Option (String × Value)
  deriving DecidableEq

namespace Builtin

/-- All built-in functions, in the order in which help texts list them. -/
def all : List Builtin := [max, sqrt, choose, assign]

def name : Builtin → String
  | max => "MAX"
  | sqrt => "SQRT"
  | choose => "IF"
  | assign => "SET"

/-- The number of arguments of a function. -/
def arity : Builtin → Nat
  | max => 2
  | sqrt => 1
  | choose => 3
  | assign => 2

/-- The line of the help text about a function. -/
def usage : Builtin → String
  | max => "MAX(a, b)        the greater of a and b"
  | sqrt => "SQRT(a)          square root (NaN below zero)"
  | choose => "IF(p, a, b)      a if p is true, else b"
  | assign => "SET(#NAME, v)    bind NAME to v and return v"

/-- The function called by a name. -/
def named? (name : String) : Option Builtin := all.find? (·.name == name)

/-- The greater of two numbers; `NaN` if either of them is. -/
def greater (x y : Float) : Float :=
  if x.isNaN || y.isNaN then 0 / 0 else if x < y then y else x

/-- A function called with arguments. -/
def call : Builtin → List Value → Except EvalError CallResult
  | max, [a, b] => do
    let x ← a.asNumber
    let y ← b.asNumber
    return ⟨.number (greater x y), none⟩
  | sqrt, [a] => do
    let x ← a.asNumber
    return ⟨.number x.sqrt, none⟩
  -- Both branches have been evaluated by now, whichever is taken.
  | choose, [p, a, b] => .ok ⟨if p.isTruthy then a else b, none⟩
  | assign, [k, v] =>
    match k, v with
    -- A key names what is bound and is never bound itself.
    | .key _, .key _ => .error (.typeMismatch .numberOrBoolean .key)
    | .key name, v => .ok ⟨v, some (name, v)⟩
    | k, _ => .error (.typeMismatch .key k.kind)
  -- What is left are calls with the wrong number of arguments.
  | b, _ => .error (.stackUnderflow b.name)

/-- Looking a name up finds the function of that name. -/
theorem named?_eq_some_iff {s : String} {b : Builtin} : named? s = some b ↔ b.name = s := by
  constructor
  · intro h
    simpa using List.find?_some h
  · rintro rfl
    -- The four names differ, so none of them hides another.
    cases b <;> rfl

end Builtin

end Calculator
