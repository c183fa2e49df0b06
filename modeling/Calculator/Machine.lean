import Calculator.Builtin
import Calculator.Environment
import Calculator.Event
import Calculator.Operator.Apply

/-!
# The stack machine

Tokens in postfix order are evaluated one by one. An operand puts its value on the stack; an
operator or function takes its operands off and puts its result on. A token that fails changes
neither the stack nor the environment, and what the tokens before it bound stays bound.

An evaluation starts with an empty stack, whatever an earlier one left there, and has a value if
exactly one is left at its end.
-/

namespace Calculator

/-- A machine between two tokens. -/
structure Machine where
  env : Environment
  /-- The operands, the topmost first. -/
  stack : List Value
  /-- Whether single steps are reported. -/
  tracing : Bool

/-- How an evaluation ended. -/
structure Evaluation where
  result : Except EvalError Value
  machine : Machine
  events : List Event

namespace Machine

def start (env : Environment) (tracing : Bool) : Machine := ⟨env, [], tracing⟩

def push (m : Machine) (v : Value) : Machine := { m with stack := v :: m.stack }

/-- Make the binding that a call asks for. -/
def record (m : Machine) : Option (String × Value) → Machine × List Event
  | none => (m, [])
  | some (name, value) => ({ m with env := m.env.set name value }, [.write name value])

/-- Call a function with operands from the stack. The last argument lies on top. -/
def call (m : Machine) (b : Builtin) : Except EvalError (Machine × List Event) :=
  if m.stack.length < b.arity then .error (.stackUnderflow b.name)
  else do
    -- Nothing is taken off before the call has succeeded.
    let ⟨value, write?⟩ ← b.call (m.stack.take b.arity).reverse
    return { m with stack := value :: m.stack.drop b.arity }.record write?

/-- Evaluate one token. -/
def step (m : Machine) : Token → Except EvalError (Machine × List Event)
  | .number x => .ok (m.push (.number x), [])
  | .key name => .ok (m.push (.key name), [])
  | .reference name =>
    match m.env.get? name with
    | some value => .ok (m.push value, [])
    | none => .error (.undefinedVariable name)
  | .operator op =>
    -- The right operand was put on the stack last.
    match m.stack with
    | right :: left :: below => do
      let value ← op.apply left right
      return ({ m with stack := value :: below }, [])
    | _ => .error (.stackUnderflow (String.singleton op.symbol))
  | .function name =>
    -- A name is looked up only when the call is due.
    match Builtin.named? name with
    | some b => m.call b
    | none => .error (.undefinedFunction name)
  | .punct mark => .error (.undefinedOperator mark)

/-- The report of a step that a token has just made: the topmost values and how many there are. -/
def report (m : Machine) (token : Token) : List Event :=
  if m.tracing then [.step token m.stack.length (m.stack.take 5)] else []

/-- Evaluate tokens up to the first that fails. -/
def run (m : Machine) : List Token → Machine × List Event × Option EvalError
  | [] => (m, [], none)
  | token :: rest =>
    match m.step token with
    -- The token that fails is not reported, and the machine stays where it was.
    | .error e => (m, [], some e)
    | .ok (m, writes) =>
      let (final, events, fault?) := m.run rest
      (final, writes ++ m.report token ++ events, fault?)

/-- The value left on the stack at the end. -/
def value (m : Machine) : Except EvalError Value :=
  match m.stack with
  | [] => .error .emptyExpression
  | [v] => .ok v
  | vs => .error (.trailingOperands vs.length)

/-- Evaluate tokens in postfix order to one value. -/
def eval (m : Machine) (rpn : List Token) : Evaluation :=
  -- Operands of an earlier evaluation do not count.
  let (final, events, fault?) := { m with stack := [] }.run rpn
  let result :=
    match fault? with
    | some e => .error e
    | none => final.value
  ⟨result, final, .evaluating rpn :: events⟩

end Machine

/-- The result of tokens in postfix order, and the environment after them. -/
def evaluate (rpn : List Token) (env : Environment) : Except EvalError Value × Environment :=
  let evaluation := (Machine.start env false).eval rpn
  (evaluation.result, evaluation.machine.env)

end Calculator
