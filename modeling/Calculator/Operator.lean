/-!
# Binary operators

The eight operators, from the loosest binding to the tightest: comparisons, sums, products and
the power, which alone groups to the right.

## Key results

* `ofSymbol?_eq_some_iff`       reading a symbol inverts writing one
* `associativity_eq_left_iff`   the power is the only operator that groups to the right
-/

namespace Calculator

inductive Operator where
  | add
  | sub
  | mul
  | div
  | pow
  | less
  | greater
  | equal
  deriving DecidableEq, Repr

/-- The side to which operators of equal precedence group. -/
inductive Associativity where
  | left
  | right
  deriving DecidableEq, Repr

namespace Operator

def symbol : Operator → Char
  | add => '+'
  | sub => '-'
  | mul => '*'
  | div => '/'
  | pow => '^'
  | less => '<'
  | greater => '>'
  | equal => '='

/-- The operator written with a character. -/
def ofSymbol? : Char → Option Operator
  | '+' => some add
  | '-' => some sub
  | '*' => some mul
  | '/' => some div
  | '^' => some pow
  | '<' => some less
  | '>' => some greater
  | '=' => some equal
  | _ => none

/-- The English name of an operator, as JSON shows it. -/
def name : Operator → String
  | add => "Add"
  | sub => "Sub"
  | mul => "Mul"
  | div => "Div"
  | pow => "Pow"
  | less => "Less"
  | greater => "Greater"
  | equal => "Equal"

/-- How tightly an operator binds. -/
def precedence : Operator → Nat
  | pow => 3
  | mul | div => 2
  | add | sub => 1
  | less | greater | equal => 0

/-- The side to which an operator groups. -/
def associativity : Operator → Associativity
  | pow => .right
  | _ => .left

/-- Reading a symbol inverts writing one. -/
theorem ofSymbol?_eq_some_iff {c : Char} {o : Operator} : ofSymbol? c = some o ↔ c = o.symbol := by
  constructor
  · intro h
    -- One case for each symbol, and one for characters that are none.
    unfold ofSymbol? at h
    split at h <;> simp_all [symbol]
    all_goals subst h; rfl
  · rintro rfl
    cases o <;> rfl

/-- All operators but the power group to the left. -/
theorem associativity_eq_left_iff {o : Operator} : o.associativity = .left ↔ o ≠ pow := by
  cases o <;> simp [associativity]

/-- Nothing but the power binds as tightly as it does. -/
theorem eq_pow_of_le_precedence {o : Operator} (h : 3 ≤ o.precedence) : o = pow := by
  cases o <;> simp_all [precedence]

end Operator

end Calculator
