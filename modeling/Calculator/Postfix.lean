import Calculator.Strictness
import Calculator.Token

/-!
# Postfix order

`Postfix.ofInfix` puts operators behind their operands and function names behind their arguments.
Operands pass through at once. Operators, function names and opening parentheses wait on a stack:

* an operator first sends out what waits above it and binds tighter, or equally tight and to the
  left; a function name always leaves before an operator;
* a function name sends out only other function names;
* a comma sends out everything down to the nearest opening parenthesis, and a closing parenthesis
  takes that one away as well.

Without an opening parenthesis to meet, a comma or closing parenthesis sends out the whole stack.
Strict parentheses make that an error, and likewise a parenthesis that still waits at the end.
-/

namespace Calculator

/-- Why a sequence of tokens has no postfix order. -/
inductive ParseError where
  /-- A function, reference or key without a name. -/
  | unparsedToken (token : Token) (index : Nat)
  | unbalancedParenthesis (index : Nat)
  deriving DecidableEq, Repr

def ParseError.message : ParseError → String
  | unparsedToken token index => "Unparsed token " ++ token.text ++ " at position " ++ index.repr
  | unbalancedParenthesis index => "Unbalanced parenthesis at position " ++ index.repr

namespace Postfix

/-- Something that waits for its place in the output. -/
inductive Pending where
  | operator (op : Operator)
  | function (name : String)
  /-- An opening parenthesis, with the position of its token. -/
  | paren (index : Nat)
  deriving DecidableEq, Repr

namespace Pending

def isParen : Pending → Bool
  | paren _ => true
  | _ => false

def isFunction : Pending → Bool
  | function _ => true
  | _ => false

/-- Whether something waiting leaves before an operator comes to wait above it. -/
def yieldsTo (incoming : Operator) : Pending → Bool
  | operator op =>
    incoming.precedence < op.precedence ||
      (incoming.precedence == op.precedence && incoming.associativity == .left)
  -- A function has all its arguments once an operator comes.
  | function _ => true
  | paren _ => false

/-- What something waiting becomes in the output, where parentheses do not appear. -/
def token? : Pending → Option Token
  | operator op => some (.operator op)
  | function name => some (.function name)
  | paren _ => none

end Pending

/-- The output of waiting entries that leave in the given order. -/
def emit (pending : List Pending) : List Token := pending.filterMap Pending.token?

/-- The output that one token causes, and the stack after it. -/
def step (strict : Bool) (index : Nat) (stack : List Pending) (token : Token) :
    Except ParseError (List Token × List Pending) :=
  if token.isUnnamed then .error (.unparsedToken token index)
  else
    match token with
    | .number _ | .reference _ | .key _ => .ok ([token], stack)
    | .function name =>
      -- A name sends out names only: operators wait for it and its arguments.
      .ok (emit (stack.takeWhile Pending.isFunction),
        .function name :: stack.dropWhile Pending.isFunction)
    | .operator op =>
      .ok (emit (stack.takeWhile (Pending.yieldsTo op)),
        .operator op :: stack.dropWhile (Pending.yieldsTo op))
    | .punct .leftParen => .ok ([], .paren index :: stack)
    -- A comma keeps the parenthesis it meets, and a closing parenthesis takes it away. A function
    -- name under that parenthesis goes on waiting.
    | .punct mark =>
      match stack.dropWhile (!Pending.isParen ·) with
      | [] => if strict then .error (.unbalancedParenthesis index) else .ok (emit stack, [])
      | paren :: below =>
        .ok (emit (stack.takeWhile (!Pending.isParen ·)),
          if mark = .rightParen then below else paren :: below)

/-- The output that tokens from position `index` on cause, and the stack after them. -/
def run (strict : Bool) (index : Nat) (stack : List Pending) :
    List Token → Except ParseError (List Token × List Pending)
  | [] => .ok ([], stack)
  | token :: rest => do
    let (output, stack) ← step strict index stack token
    let (more, stack) ← run strict (index + 1) stack rest
    return (output ++ more, stack)

/-- The output of what still waits after the last token. -/
def finish (strict : Bool) (stack : List Pending) : Except ParseError (List Token) :=
  match strict, stack.dropWhile (!Pending.isParen ·) with
  -- The topmost parenthesis is the one opened last.
  | true, .paren index :: _ => .error (.unbalancedParenthesis index)
  | _, _ => .ok (emit stack)

/-- The postfix order of tokens in infix order. -/
def ofInfix (strictness : Strictness) (tokens : List Token) : Except ParseError (List Token) := do
  let (output, stack) ← run strictness.parentheses 0 [] tokens
  return output ++ (← finish strictness.parentheses stack)

end Postfix

end Calculator
