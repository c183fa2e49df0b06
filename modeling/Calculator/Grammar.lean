import Calculator.Expr

/-!
# The grammar of infix expressions

Which tokens in infix order stand for which tree. Expressions come in five layers, each of which
contains the next:

    comparison ::= sum | comparison ("<" | ">" | "=") sum
    sum        ::= product | sum ("+" | "-") product
    product    ::= power | product ("*" | "/") power
    power      ::= primary | primary "^" power
    primary    ::= number | $NAME | #NAME | NAME "(" arguments ")" | "(" comparison ")"

Comparisons, sums and products group to the left: what stands before an operator is of the layer
of the operator, and what stands behind it is of the next one. Powers group to the right. The
layers are numbered from zero, and each of the first three has its own list of operators
(`Phrase.operators`). The rules do not go by the precedence of an operator; that the layers agree
with it is a lemma (`Phrase.mem_operators_iff`).
-/

namespace Calculator

/-- A part of the grammar. -/
inductive Phrase where
  /-- The expressions of a layer, counted from the loosest binding. -/
  | layer (n : Nat)
  /-- The arguments of a call, separated by commas. -/
  | arguments
  deriving DecidableEq, Repr

namespace Phrase

/-- Expressions of any kind. The outermost operator may be a comparison. -/
abbrev expression : Phrase := layer 0

/-- Expressions whose outermost operator is a power. -/
abbrev power : Phrase := layer 3

/-- Operands, calls and expressions in parentheses. -/
abbrev primary : Phrase := layer 4

/-- The operators that join the expressions of a layer and group to the left. -/
def operators : Nat → List Operator
  | 0 => [.less, .greater, .equal]
  | 1 => [.add, .sub]
  | 2 => [.mul, .div]
  -- Powers have a rule of their own, and nothing is joined in a primary.
  | _ => []

/-- The grammar says the same as the tables of precedence and associativity: an operator of a layer
has the number of the layer as its precedence and groups to the left. -/
theorem mem_operators_iff {op : Operator} {n : Nat} :
    op ∈ operators n ↔ op.precedence = n ∧ op.associativity = .left := by
  match n with
  | 0 | 1 | 2 => cases op <;> simp [operators, Operator.precedence, Operator.associativity]
  | n + 3 => cases op <;> simp [operators, Operator.precedence, Operator.associativity]

end Phrase

open Token Punct in
/-- `Derives phrase tokens trees`: the grammar derives the tokens from the phrase, and they stand
for the trees, of which an expression has one and arguments have any number. -/
inductive Derives : Phrase → List Token → List Expr → Prop
  | number (x : Float) : Derives .primary [number x] [.number x]
  | reference {name : String} (h : name ≠ "") :
    Derives .primary [reference name] [.reference name]
  | key {name : String} (h : name ≠ "") : Derives .primary [key name] [.key name]
  | parentheses {ts : List Token} {e : Expr} (inner : Derives .expression ts [e]) :
    Derives .primary (punct leftParen :: (ts ++ [punct rightParen])) [e]
  | call {name : String} {ts : List Token} {es : List Expr} (h : name ≠ "")
    (inner : Derives .arguments ts es) :
    Derives .primary (function name :: punct leftParen :: (ts ++ [punct rightParen]))
      [.call name es]
  | pow {ts us : List Token} {a b : Expr} (left : Derives .primary ts [a])
    (right : Derives .power us [b]) :
    Derives .power (ts ++ operator .pow :: us) [.binary .pow a b]
  | binary {n : Nat} {op : Operator} {ts us : List Token} {a b : Expr}
    (h : op ∈ Phrase.operators n) (left : Derives (.layer n) ts [a])
    (right : Derives (.layer (n + 1)) us [b]) :
    Derives (.layer n) (ts ++ operator op :: us) [.binary op a b]
  | looser {n : Nat} {ts : List Token} {e : Expr} (inner : Derives (.layer (n + 1)) ts [e]) :
    Derives (.layer n) ts [e]
  | noArguments : Derives .arguments [] []
  | argument {ts : List Token} {e : Expr} (inner : Derives .expression ts [e]) :
    Derives .arguments ts [e]
  | moreArguments {ts us : List Token} {e : Expr} {es : List Expr}
    (first : Derives .expression ts [e]) (rest : Derives .arguments us es) (h : es ≠ []) :
    Derives .arguments (ts ++ punct comma :: us) (e :: es)

/-- An expression of a layer is one of all layers before it. -/
theorem Derives.of_le {m n : Nat} {ts : List Token} {e : Expr} (h : Derives (.layer m) ts [e])
    (hle : n ≤ m) : Derives (.layer n) ts [e] := by
  -- One layer at a time, from `m` down to `n`.
  induction hle with
  | refl => exact h
  | step _ ih => exact ih (.looser h)

end Calculator
