import Calculator.Machine

/-!
# Expression trees

The tree behind a sequence of tokens, with its meaning given directly: operands from left to
right, all arguments of a call before the call, and every binding visible to whatever is evaluated
after it. An error ends the evaluation where it happens and leaves the bindings made before it.

`postorder` writes a tree as tokens, each operator and function name behind its operands.
-/

namespace Calculator

/-- A tree of operators and calls over numbers, references and keys. -/
inductive Expr where
  | number (value : Float)
  | reference (name : String)
  | key (name : String)
  | binary (op : Operator) (left right : Expr)
  | call (function : String) (arguments : List Expr)

namespace Expr

/-! ### Tokens -/

mutual

/-- The tokens of a tree in postfix order. -/
def postorder : Expr → List Token
  | number x => [.number x]
  | reference name => [.reference name]
  | key name => [.key name]
  | binary op left right => left.postorder ++ right.postorder ++ [.operator op]
  | call function arguments => postorderAll arguments ++ [.function function]

/-- The tokens of several trees in postfix order, one tree after the other. -/
def postorderAll : List Expr → List Token
  | [] => []
  | e :: rest => e.postorder ++ postorderAll rest

end

mutual

/-- The calls in a tree: the name of the function and the number of arguments of each. -/
def calls : Expr → List (String × Nat)
  | binary _ left right => left.calls ++ right.calls
  | call function arguments => callsAll arguments ++ [(function, arguments.length)]
  | _ => []

/-- The calls in several trees. -/
def callsAll : List Expr → List (String × Nat)
  | [] => []
  | e :: rest => e.calls ++ callsAll rest

end

/-- Whether every call of a built-in function has as many arguments as the function takes. -/
def FitsArity (e : Expr) : Prop :=
  ∀ c ∈ e.calls, ∀ b, Builtin.named? c.1 = some b → c.2 = b.arity

/-- Whether every call is one of a built-in function. -/
def CallsBuiltins (e : Expr) : Prop :=
  ∀ c ∈ e.calls, (Builtin.named? c.1).isSome

/-! ### Meaning -/

/-- The environment after a call. -/
def record (env : Environment) : Option (String × Value) → Environment
  | none => env
  | some (name, value) => env.set name value

/-- A call with evaluated arguments. -/
def apply (function : String) (values : List Value) (env : Environment) :
    Except EvalError Value × Environment :=
  match Builtin.named? function with
  | none => (.error (.undefinedFunction function), env)
  | some b =>
    match b.call values with
    | .error e => (.error e, env)
    | .ok result => (.ok result.value, record env result.write?)

mutual

/-- The value of a tree, and the environment after its evaluation. -/
def eval : Expr → Environment → Except EvalError Value × Environment
  | number x, env => (.ok (.number x), env)
  | reference name, env =>
    match env.get? name with
    | some value => (.ok value, env)
    | none => (.error (.undefinedVariable name), env)
  | key name, env => (.ok (.key name), env)
  | binary op left right, env =>
    match left.eval env with
    | (.error e, env) => (.error e, env)
    | (.ok a, env) =>
      match right.eval env with
      | (.error e, env) => (.error e, env)
      | (.ok b, env) => (op.apply a b, env)
  | call function arguments, env =>
    match evalAll arguments env with
    | (.error e, env) => (.error e, env)
    | (.ok values, env) => apply function values env

/-- The values of several trees, evaluated from left to right, and the environment after them. -/
def evalAll : List Expr → Environment → Except EvalError (List Value) × Environment
  | [], env => (.ok [], env)
  | e :: rest, env =>
    match e.eval env with
    | (.error e, env) => (.error e, env)
    | (.ok value, env) =>
      match evalAll rest env with
      | (.error e, env) => (.error e, env)
      | (.ok values, env) => (.ok (value :: values), env)

end

/-! ### Induction -/

/-- What holds of the leaves, and of a node if it holds of all its children, holds of every tree. -/
@[elab_as_elim]
theorem induct {motive : Expr → Prop} (number : ∀ x, motive (number x))
    (reference : ∀ name, motive (reference name)) (key : ∀ name, motive (key name))
    (binary : ∀ op left right, motive left → motive right → motive (binary op left right))
    (call : ∀ function arguments, (∀ e ∈ arguments, motive e) → motive (call function arguments))
    (e : Expr) : motive e :=
  Expr.rec (motive_2 := fun es => ∀ e ∈ es, motive e) number reference key
    (fun op left right => binary op left right) (fun function arguments => call function arguments)
    (fun _ h => absurd h List.not_mem_nil)
    (fun _ _ hd tl e h => (List.mem_cons.1 h).elim (fun h => h ▸ hd) (tl e)) e

end Expr

end Calculator
