import Calculator.Grammar
import Calculator.Proofs.ExprTree
import Calculator.Proofs.PostfixRun

/-!
# Postfix order of the expressions of the grammar

Every sequence of tokens that the grammar derives is accepted, and its postfix order is the
postorder of the derived tree.

Function names and operators wait on the stack while the phrase that they belong to is read, so
the induction is about a phrase in the middle of a text. It starts on a stack whose top the
phrase leaves alone (`Holds`), and what it leaves waiting above that stack binds at least as
tightly as its layer (`Pending.Binds`). `Leaves` puts the two together, with one lemma for each
way in which the grammar builds a phrase.

## Key results

- `Leaves.binary`, `Leaves.parentheses`, `Leaves.call`, `Leaves.comma`: one rule of the grammar
- `leaves_of_derives`: the phrases of the grammar, by induction on the derivation
- `ofInfix_of_leaves`, `ofInfix_of_derives`: from the middle of a text to the whole text
- `ofInfix_eq_postorder`: the postfix order of an expression is the postorder of its tree
-/

namespace Calculator.Postfix

/-! ### What a layer leaves waiting, and what it leaves alone -/

/-- Whether something waiting binds at least as tightly as a layer. Function names do. -/
def Pending.Binds (layer : Nat) : Pending → Prop
  | .operator op => layer ≤ op.precedence
  | .function _ => True
  | .paren _ => False

/-- Whether an expression of a layer leaves the top of a stack alone: it is no function name, and
no operator of the layer sends it out. -/
def Holds (layer : Nat) (stack : List Pending) : Prop :=
  ∀ top ∈ stack.head?,
    top.isFunction = false ∧ ∀ op : Operator, layer ≤ op.precedence → top.yieldsTo op = false

namespace Pending.Binds

/-- What binds as tightly as a layer binds as tightly as any looser one. -/
theorem mono {layer looser : Nat} {p : Pending} (h : p.Binds layer) (hle : looser ≤ layer) :
    p.Binds looser := by
  cases p with
  | operator op => exact Nat.le_trans hle h
  | function name => trivial
  | paren index => exact h

theorem isParen_eq {layer : Nat} {p : Pending} (h : p.Binds layer) : p.isParen = false := by
  cases p with
  | operator op => rfl
  | function name => rfl
  | paren index => exact h.elim

/-- What binds more tightly than an operator leaves before it. -/
theorem yieldsTo_of_lt {layer : Nat} {p : Pending} {op : Operator} (h : p.Binds layer)
    (hlt : op.precedence < layer) : p.yieldsTo op = true := by
  cases p with
  | operator above =>
    have hprec : op.precedence < above.precedence := Nat.lt_of_lt_of_le hlt h
    simp [yieldsTo, hprec]
  | function name => rfl
  | paren index => exact h.elim

/-- What binds as tightly as an operator that groups to the left leaves before it. -/
theorem yieldsTo_of_left {p : Pending} {op : Operator} (h : p.Binds op.precedence)
    (hassoc : op.associativity = .left) : p.yieldsTo op = true := by
  cases p with
  | operator above =>
    have hprec : op.precedence ≤ above.precedence := h
    -- Either it binds more tightly, or equally, and then grouping to the left decides.
    simp only [yieldsTo, hassoc, beq_self_eq_true, Bool.and_true, Bool.or_eq_true,
      decide_eq_true_eq, beq_iff_eq]
    omega
  | function name => rfl
  | paren index => exact h.elim

end Pending.Binds

namespace Holds

theorem nil (layer : Nat) : Holds layer [] := by simp [Holds]

/-- A parenthesis stays while what stands behind it is read. -/
theorem paren (layer index : Nat) (stack : List Pending) :
    Holds layer (.paren index :: stack) := by
  simp [Holds, Pending.isFunction, Pending.yieldsTo]

/-- A layer that leaves a stack alone does so with fewer operators, too. -/
theorem mono {layer tighter : Nat} {stack : List Pending} (h : Holds layer stack)
    (hle : layer ≤ tighter) : Holds tighter stack := fun top htop =>
  ⟨(h top htop).1, fun op hop => (h top htop).2 op (Nat.le_trans hle hop)⟩

/-- An operator stays while a tighter layer is read. -/
theorem operator {op : Operator} (stack : List Pending) :
    Holds (op.precedence + 1) (.operator op :: stack) := by
  intro top htop
  obtain rfl : Pending.operator op = top := by simpa using htop
  refine ⟨rfl, fun incoming hop => ?_⟩
  -- The incoming operator binds strictly more tightly, so associativity does not matter.
  simp only [Pending.yieldsTo, Bool.or_eq_false_iff, Bool.and_eq_false_iff, decide_eq_false_iff_not,
    beq_eq_false_iff_ne]
  omega

/-- A power stays while a layer of powers is read, since it groups to the right. -/
theorem pow (stack : List Pending) : Holds 3 (.operator .pow :: stack) := by
  intro top htop
  obtain rfl : Pending.operator .pow = top := by simpa using htop
  refine ⟨rfl, fun incoming hop => ?_⟩
  -- Only a power could meet it, and that groups to the right.
  obtain rfl := Operator.eq_pow_of_le_precedence hop
  rfl

end Holds

/-! ### Phrases in the middle of a text -/

/-- Read on top of a stack, the tokens are accepted. Their output and that of what they leave
waiting above the stack make up the postorder of the trees, and what waits binds at least as
tightly as the layer. -/
def Leaves (strict : Bool) (stack : List Pending) (layer : Nat) (ts : List Token)
    (es : List Expr) : Prop :=
  ∀ index, ∃ output waiting, run strict index stack ts = .ok (output, waiting ++ stack) ∧
    output ++ emit waiting = Expr.postorderAll es ∧ ∀ p ∈ waiting, p.Binds layer

namespace Leaves

variable {strict : Bool} {stack : List Pending} {ts us : List Token} {es : List Expr}

/-- What a layer leaves waiting may stand for a looser one. -/
theorem mono {layer looser : Nat} (h : Leaves strict stack layer ts es) (hle : looser ≤ layer) :
    Leaves strict stack looser ts es := by
  intro index
  obtain ⟨output, waiting, hrun, hpost, hbinds⟩ := h index
  exact ⟨output, waiting, hrun, hpost, fun p hp => (hbinds p hp).mono hle⟩

/-- An operand leaves nothing waiting. -/
theorem operand (layer : Nat) {token : Token} {e : Expr} (hoperand : token.isOperand = true)
    (hname : token.isUnnamed = false) (hpost : e.postorder = [token]) :
    Leaves strict stack layer [token] [e] := by
  intro index
  refine ⟨[token], [], ?_, ?_, by simp⟩
  · rw [run_singleton, step_operand strict index stack hoperand hname, List.nil_append]
  · simp [Expr.postorderAll, hpost]

/-- Parentheses output what is between them and leave the stack as it was. -/
theorem run_parentheses (index : Nat)
    (hinner : ∀ opened, Leaves strict (.paren opened :: stack) 0 ts es) :
    run strict index stack (.punct .leftParen :: (ts ++ [.punct .rightParen])) =
      .ok (Expr.postorderAll es, stack) := by
  -- What is between the parentheses starts at the next position, above a parenthesis opened here.
  obtain ⟨output, waiting, hrun, hpost, hbinds⟩ := hinner index (index + 1)
  have hclose := step_rightParen strict (index + 1 + ts.length) index stack
    fun p hp => (hbinds p hp).isParen_eq
  rw [← run_singleton] at hclose
  have h := run_cons_of_ok (step_leftParen strict index stack) (run_append_of_ok hrun hclose)
  rwa [List.nil_append, hpost] at h

/-- An expression in parentheses leaves nothing waiting. -/
theorem parentheses (layer : Nat)
    (hinner : ∀ opened, Leaves strict (.paren opened :: stack) 0 ts es) :
    Leaves strict stack layer (.punct .leftParen :: (ts ++ [.punct .rightParen])) es := by
  intro index
  refine ⟨Expr.postorderAll es, [], run_parentheses index hinner, by simp, by simp⟩

/-- A call leaves the name of its function waiting. -/
theorem call (layer : Nat) {name : String} (hname : name ≠ "")
    (htop : ∀ top ∈ stack.head?, top.isFunction = false)
    (hinner : ∀ opened, Leaves strict (.paren opened :: .function name :: stack) 0 ts es) :
    Leaves strict stack layer
      (.function name :: .punct .leftParen :: (ts ++ [.punct .rightParen])) [.call name es] := by
  intro index
  refine ⟨Expr.postorderAll es, [.function name], ?_, ?_, ?_⟩
  · have hstep := @step_function strict index [] stack name hname (by simp) htop
    have h := run_cons_of_ok hstep (run_parentheses (index + 1) hinner)
    rwa [emit_nil, List.nil_append] at h
  · simp [Expr.postorderAll, Expr.postorder]
  · simp [Pending.Binds]

/-- An operator sends out all that its left operand left waiting, and waits below what its right
operand leaves. -/
theorem binary {op : Operator} {left right : Nat} {a b : Expr}
    (hts : Leaves strict stack left ts [a])
    (hus : Leaves strict (.operator op :: stack) right us [b])
    (hyield : ∀ p : Pending, p.Binds left → p.yieldsTo op = true)
    (htop : ∀ top ∈ stack.head?, top.yieldsTo op = false) (hright : op.precedence ≤ right) :
    Leaves strict stack op.precedence (ts ++ .operator op :: us) [.binary op a b] := by
  intro index
  obtain ⟨output₁, waiting₁, hrun₁, hpost₁, hbinds₁⟩ := hts index
  obtain ⟨output₂, waiting₂, hrun₂, hpost₂, hbinds₂⟩ := hus (index + ts.length + 1)
  have hstep := step_operator strict (index + ts.length)
    (fun p hp => hyield p (hbinds₁ p hp)) htop
  -- The operator ends up below what its right operand leaves, and above the old stack.
  refine ⟨output₁ ++ (emit waiting₁ ++ output₂), waiting₂ ++ [.operator op], ?_, ?_, ?_⟩
  · rw [List.append_assoc waiting₂]
    exact run_append_of_ok hrun₁ (run_cons_of_ok hstep hrun₂)
  · simp only [Expr.postorderAll, Expr.postorder, List.append_nil] at hpost₁ hpost₂ ⊢
    rw [← hpost₁, ← hpost₂]
    simp
  · intro p hp
    rcases List.mem_append.1 hp with hp | hp
    · exact (hbinds₂ p hp).mono hright
    · obtain rfl := List.mem_singleton.1 hp
      exact Nat.le_refl _

/-- A comma sends out all that the argument before it left waiting. -/
theorem comma {opened : Nat} {e : Expr} (hts : Leaves strict (.paren opened :: stack) 0 ts [e])
    (hus : Leaves strict (.paren opened :: stack) 0 us es) :
    Leaves strict (.paren opened :: stack) 0 (ts ++ .punct .comma :: us) (e :: es) := by
  intro index
  obtain ⟨output₁, waiting₁, hrun₁, hpost₁, hbinds₁⟩ := hts index
  obtain ⟨output₂, waiting₂, hrun₂, hpost₂, hbinds₂⟩ := hus (index + ts.length + 1)
  have hstep := step_comma strict (index + ts.length) opened stack
    fun p hp => (hbinds₁ p hp).isParen_eq
  -- The comma itself is neither sent out nor kept, and the parenthesis stays below.
  refine ⟨output₁ ++ (emit waiting₁ ++ output₂), waiting₂, ?_, ?_, hbinds₂⟩
  · exact run_append_of_ok hrun₁ (run_cons_of_ok hstep hrun₂)
  · simp only [Expr.postorderAll, List.append_nil] at hpost₁ ⊢
    rw [← hpost₁, ← hpost₂]
    simp

end Leaves

/-! ### The grammar -/

/-- Where a phrase may be read: an expression where its layer leaves the stack alone, arguments
right above the parenthesis of their call. -/
def Ready : Phrase → List Pending → Prop
  | .layer n, stack => Holds n stack
  | .arguments, stack => ∃ opened below, stack = .paren opened :: below

/-- The loosest layer of the operators that a phrase leaves waiting. -/
def loosest : Phrase → Nat
  | .layer n => n
  | .arguments => 0

/-- Every phrase of the grammar is accepted where it may be read, and leaves behind what is still
missing from the postorder of its trees. -/
theorem leaves_of_derives {phrase : Phrase} {ts : List Token} {es : List Expr} (strict : Bool)
    (h : Derives phrase ts es) :
    ∀ stack, Ready phrase stack → Leaves strict stack (loosest phrase) ts es := by
  -- The layer of a derivation changes on the way down, and so does the stack below the phrase.
  induction h with
  | number x => exact fun stack _ => .operand 4 rfl rfl rfl
  | reference hname => exact fun stack _ => .operand 4 rfl (by simpa [Token.isUnnamed]) rfl
  | key hname => exact fun stack _ => .operand 4 rfl (by simpa [Token.isUnnamed]) rfl
  | parentheses _ ih => exact fun stack _ => .parentheses 4 fun opened => ih _ (.paren 0 opened _)
  | call hname _ ih =>
    intro stack hready
    -- A function name on top of the stack would leave when this one comes.
    exact .call 4 hname (fun top htop => (hready top htop).1) fun opened => ih _ ⟨opened, _, rfl⟩
  | pow _ _ ihleft ihright =>
    intro stack hready
    -- Only function names can wait behind the left operand, and they leave before any operator.
    refine .binary (ihleft stack (hready.mono (by decide))) (ihright _ (.pow stack))
      (fun p hp => hp.yieldsTo_of_lt (by decide)) ?_ (Nat.le_refl 3)
    exact fun top htop => (hready top htop).2 .pow (Nat.le_refl 3)
  | @binary n op _ _ _ _ hop _ _ ihleft ihright =>
    intro stack hready
    obtain ⟨rfl, hassoc⟩ := Phrase.mem_operators_iff.1 hop
    -- The left operand is of the operator's own layer, so what it leaves groups to the left.
    refine .binary (ihleft stack hready) (ihright _ (.operator stack))
      (fun p hp => hp.yieldsTo_of_left hassoc) ?_ (Nat.le_succ _)
    exact fun top htop => (hready top htop).2 op (Nat.le_refl _)
  | looser _ ih =>
    -- A looser layer allows fewer stacks and promises less about what waits.
    exact fun stack hready => (ih stack (hready.mono (Nat.le_succ _))).mono (Nat.le_succ _)
  | noArguments => exact fun stack _ index => ⟨[], [], rfl, rfl, by simp⟩
  | argument _ ih =>
    rintro _ ⟨opened, below, rfl⟩
    exact ih _ (.paren 0 opened below)
  | moreArguments _ _ _ ihfirst ihrest =>
    rintro _ ⟨opened, below, rfl⟩
    exact .comma (ihfirst _ (.paren 0 opened below)) (ihrest _ ⟨opened, below, rfl⟩)

/-- A whole text that leaves only operators and function names waiting is in postorder. -/
theorem ofInfix_of_leaves {strictness : Strictness} {layer : Nat} {ts : List Token}
    {es : List Expr} (h : Leaves strictness.parentheses [] layer ts es) :
    ofInfix strictness ts = .ok (Expr.postorderAll es) := by
  -- No parenthesis binds, so strict parentheses find nothing to object to at the end.
  obtain ⟨output, waiting, hrun, hpost, hbinds⟩ := h 0
  have hfinish := finish_eq_emit strictness.parentheses fun p hp => (hbinds p hp).isParen_eq
  rw [List.append_nil] at hrun
  simp only [ofInfix, hrun, hfinish, bind, Except.bind, pure, Except.pure, hpost]

/-- The tokens of an expression of any layer are accepted, and put into the postorder of its
tree. -/
theorem ofInfix_of_derives {n : Nat} {ts : List Token} {e : Expr} (h : Derives (.layer n) ts [e])
    (strictness : Strictness) : ofInfix strictness ts = .ok e.postorder := by
  have hleaves := leaves_of_derives strictness.parentheses h [] (.nil n)
  rw [ofInfix_of_leaves hleaves, Expr.postorderAll_singleton]

/-- The postfix order of an expression of the grammar is the postorder of its tree, whether or not
parentheses are strict. -/
theorem ofInfix_eq_postorder {ts : List Token} {e : Expr} (h : Derives .expression ts [e])
    (strictness : Strictness) : ofInfix strictness ts = .ok e.postorder :=
  ofInfix_of_derives h strictness

open Token Punct in
/-- `1 < 2 + 3 * SET(#N, 6 - 3 - 1) ^ SQRT(49) ^ $E = (MAX($PI, 5) / F())`. -/
theorem ofInfix_nested_calls :
    ofInfix .strict
      [number 1, operator .less, number 2, operator .add, number 3, operator .mul,
        function "SET", punct leftParen, key "N", punct comma, number 6, operator .sub, number 3,
        operator .sub, number 1, punct rightParen, operator .pow, function "SQRT",
        punct leftParen, number 49, punct rightParen, operator .pow, reference "E",
        operator .equal, punct leftParen, function "MAX", punct leftParen, reference "PI",
        punct comma, number 5, punct rightParen, operator .div, function "F", punct leftParen,
        punct rightParen, punct rightParen] =
      .ok [number 1, number 2, number 3, key "N", number 6, number 3, operator .sub, number 1,
        operator .sub, function "SET", number 49, function "SQRT", reference "E", operator .pow,
        operator .pow, operator .mul, operator .add, operator .less, reference "PI", number 5,
        function "MAX", function "F", operator .div, operator .equal] := by
  -- Operands, raised to the layer where each of them stands.
  have literal (n : Nat) (x : Float) (hn : n ≤ 4) : Derives (.layer n) [number x] [.number x] :=
    .of_le (.number x) hn
  have constant (n : Nat) (name : String) (hname : name ≠ "") (hn : n ≤ 4) :
      Derives (.layer n) [reference name] [.reference name] := .of_le (.reference hname) hn
  -- `6 - 3 - 1` groups to the left.
  have inner := @Derives.binary 1 .sub _ _ _ _ (by decide) (literal 1 6 (by decide))
    (literal 2 3 (by decide))
  have difference := @Derives.binary 1 .sub _ _ _ _ (by decide) inner (literal 2 1 (by decide))
  have assignment := @Derives.call "SET" _ _ (by decide)
    (.moreArguments (.of_le (@Derives.key "N" (by decide)) (Nat.zero_le 4))
      (.argument (.looser difference)) (by simp))
  have root := @Derives.call "SQRT" _ _ (by decide) (.argument (literal 0 49 (by decide)))
  -- The two powers group to the right.
  have power := Derives.pow assignment
    (.pow root (constant 3 "E" (by decide) (by decide)))
  have product := @Derives.binary 2 .mul _ _ _ _ (by decide) (literal 2 3 (by decide)) power
  -- The sum stands on the right of `<`, and the product on the right of `+`.
  have sum := @Derives.binary 1 .add _ _ _ _ (by decide) (literal 1 2 (by decide)) product
  have less := @Derives.binary 0 .less _ _ _ _ (by decide) (literal 0 1 (by decide)) sum
  have maximum := @Derives.call "MAX" _ _ (by decide)
    (.moreArguments (constant 0 "PI" (by decide) (by decide))
      (.argument (literal 0 5 (by decide))) (by simp))
  have nullary := @Derives.call "F" _ _ (by decide) .noArguments
  have quotient := @Derives.binary 2 .div _ _ _ _ (by decide) (maximum.of_le (by decide))
    (nullary.of_le (by decide))
  -- `<` and `=` group to the left, and the quotient stands in parentheses.
  have comparison := @Derives.binary 0 .equal _ _ _ _ (by decide) less
    ((Derives.parentheses (quotient.of_le (by decide))).of_le (by decide))
  exact ofInfix_eq_postorder comparison .strict

end Calculator.Postfix
