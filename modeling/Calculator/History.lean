import Calculator.Calculation

/-!
# Histories of an environment

What a host does with an environment: it sets names, calculates texts and goes back to the
defaults. Every action reports the bindings it makes, and `Event.replay` makes them again from the
report alone.
-/

namespace Calculator

/-- Something that may change an environment. -/
inductive Action where
  | set (name : String) (value : Value)
  | reset
  | calculate (strictness : Strictness) (tracing : Bool) (text : String)

namespace Action

/-- The environment after an action, and the events it reports. -/
def perform (env : Environment) : Action → Environment × List Event
  -- A host may bind any value, a key among them.
  | set name value => (env.set name value, [.write name value])
  | reset => (env.reset, [.reset env.defaults.size])
  | calculate strictness tracing text =>
    let c := Calculator.calculate strictness tracing text env
    (c.env, c.events)

/-- The environment after actions one after the other, and the events they report. -/
def performAll (env : Environment) : List Action → Environment × List Event
  | [] => (env, [])
  | action :: rest =>
    let (env, events) := action.perform env
    let (final, more) := performAll env rest
    (final, events ++ more)

end Action

namespace Event

/-- The environment after the change that an event reports. -/
def replay (env : Environment) : Event → Environment
  | write name value => env.set name value
  | reset _ => env.reset
  -- Nothing else changes an environment.
  | _ => env

end Event

end Calculator
