import Calculator.EvalError

/-!
# Applying operators

Arithmetic is that of IEEE doubles, so dividing by zero gives an infinity or `NaN` and never an
error. Equality compares values of any kind; all other operators want two numbers, and the left
operand is looked at first.
-/

namespace Calculator.Operator

/-- An operator between two numbers. -/
def compute : Operator → Float → Float → Value
  | add, x, y => .number (x + y)
  | sub, x, y => .number (x - y)
  | mul, x, y => .number (x * y)
  | div, x, y => .number (x / y)
  | pow, x, y => .number (x.pow y)
  | less, x, y => .bool (x < y)
  | greater, x, y => .bool (x > y)
  | equal, x, y => .bool (x == y)

/-- An operator between two values. -/
def apply (op : Operator) (left right : Value) : Except EvalError Value :=
  -- Equality looks at no kinds, and cannot fail.
  if op = equal then .ok (.bool (left.same right))
  else do
    let x ← left.asNumber
    let y ← right.asNumber
    return op.compute x y

/-- No operator results in a key. -/
theorem isKey_apply {op : Operator} {left right v : Value} (h : op.apply left right = .ok v) :
    v.isKey = false := by
  unfold apply at h
  split at h
  · cases h; rfl
  · -- If an operand is no number there is no result at all.
    cases hl : left.asNumber <;> cases hr : right.asNumber <;>
      simp [hl, hr, bind, Except.bind, pure, Except.pure] at h
    subst h
    cases op <;> rfl

end Calculator.Operator
