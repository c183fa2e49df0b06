import Calculator.Token
import Calculator.Value

/-!
# Evaluation errors

The ways in which evaluating a sequence of tokens ends without a value.
-/

namespace Calculator

/-- What an operand was wanted as. -/
inductive Expectation where
  | number
  | key
  /-- A value that may be bound to a name. -/
  | numberOrBoolean
  deriving DecidableEq, Repr

def Expectation.name : Expectation → String
  | number => "number"
  | key => "key"
  | numberOrBoolean => "number or boolean"

/-- Why an evaluation has no value. -/
inductive EvalError where
  /-- Too few operands for an operator or function, named by its text. -/
  | stackUnderflow (token : String)
  /-- A punctuation mark where only operands, operators and functions may stand. -/
  | undefinedOperator (mark : Punct)
  | undefinedFunction (name : String)
  | undefinedVariable (name : String)
  | trailingOperands (count : Nat)
  | typeMismatch (expected : Expectation) (got : Value.Kind)
  | emptyExpression
  deriving DecidableEq, Repr

def EvalError.message : EvalError → String
  | stackUnderflow token => "Stack underflow: " ++ token
  | undefinedOperator mark => "Undefined operator: " ++ String.singleton mark.symbol
  | undefinedFunction name => "Undefined function: " ++ name
  | undefinedVariable name => "$" ++ name ++ " is undefined"
  | trailingOperands count =>
    "Trailing operands: " ++ count.repr ++ " values left on the stack"
  | typeMismatch expected got =>
    "Type error: expected " ++ expected.name ++ ", got " ++ got.name
  | emptyExpression => "Empty expression"

/-- A value where only a number will do. -/
def Value.asNumber (v : Value) : Except EvalError Float :=
  match v.toNumber? with
  | some x => .ok x
  | none => .error (.typeMismatch .number v.kind)

end Calculator
