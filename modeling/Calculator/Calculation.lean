import Calculator.Machine
import Calculator.Postfix
import Calculator.Token.Scan

/-!
# Calculations

A text is scanned, put into postfix order and evaluated. The first stage that fails ends the
calculation, so the environment is reached only by texts in order.
-/

namespace Calculator

/-- Results can be compared if errors and values can. -/
instance decidableEqResult {ε α : Type} [DecidableEq ε] [DecidableEq α] : DecidableEq (Except ε α)
  | .error d, .error e => decidable_of_iff (d = e) ⟨congrArg _, Except.error.inj⟩
  | .ok a, .ok b => decidable_of_iff (a = b) ⟨congrArg _, Except.ok.inj⟩
  | .error _, .ok _ | .ok _, .error _ => .isFalse nofun

/-- Why a calculation has no value: the error of one of its stages. -/
inductive Failure where
  | scan (error : ScanError)
  | parse (error : ParseError)
  | eval (error : EvalError)
  deriving DecidableEq, Repr

namespace Failure

/-- The name of the stage that failed, as JSON shows it. -/
def stage : Failure → String
  | scan _ => "scan"
  | parse _ => "parse"
  | eval _ => "eval"

def cause : Failure → String
  | scan e => e.message
  | parse e => e.message
  | eval e => e.message

/-- The wording of a failure: its stage and the cause. -/
def message : Failure → String
  | scan e => "Scan error: " ++ e.message
  | parse e => "Parse error: " ++ e.message
  | eval e => "Evaluation error: " ++ e.message

end Failure

/-- What a calculation leaves: its result, the environment after it and the events on the way. -/
structure Calculation where
  result : Except Failure Value
  env : Environment
  events : List Event

/-- The postfix order of a text, and the events on the way to it. -/
def prepare (strictness : Strictness) (text : String) :
    Except Failure (List Token) × List Event :=
  match Token.scan strictness text with
  | .error e => (.error (.scan e), [])
  | .ok tokens =>
    match Postfix.ofInfix strictness tokens with
    | .error e => (.error (.parse e), [.scanned tokens.length])
    | .ok rpn => (.ok rpn, [.scanned tokens.length, .converted rpn])

def toPostfix (strictness : Strictness) (text : String) : Except Failure (List Token) :=
  (prepare strictness text).1

/-- Calculate a text. With `tracing`, single evaluation steps are reported. -/
def calculate (strictness : Strictness) (tracing : Bool) (text : String) (env : Environment) :
    Calculation :=
  match prepare strictness text with
  -- Without a postfix order nothing is evaluated, and the environment stays as it was.
  | (.error e, events) => ⟨.error e, env, events⟩
  | (.ok rpn, events) =>
    let evaluation := (Machine.start env tracing).eval rpn
    ⟨evaluation.result.mapError .eval, evaluation.machine.env, events ++ evaluation.events⟩

end Calculator
