import Calculator.Calculation
import Calculator.Proofs.PostfixCorrect
import Calculator.Proofs.PostfixReading
import Mathlib.Algebra.Ring.Int.Defs

/-!
# Calls with the wrong number of arguments

Postfix order does not say how many arguments a call was given. A function takes as many operands
as it always does, so a call with too few takes over operands that were meant for something else,
and a call with too many leaves some behind. Usually the count does not come out in the end, but
errors of the two kinds may make up for each other: `MAX(SQRT(4, 9))` has the postfix order of
`MAX(4, SQRT(9))` and is calculated like it.

The count is kept by `Token.effect`, the operands that a token adds to the stack. Over the
postorder of a tree the effects add up to one more than the surplus of its calls, and over tokens
that have a value they add up to one.

## Key results

- `sum_effect_postorder`: the effects of a postorder and the surplus of the calls
- `surplus_eq_zero_of_postorder_eq`: no surplus where the calls can be regrouped
- `calculate_ok_iff_of_derives`: a value is that of a saturated tree with the same postorder
- `calculate_error_iff_of_misfit`: when a call with the wrong number of arguments goes unnoticed
-/

namespace Calculator

/-! ### Counting operands -/

/-- How many operands a token adds to the stack, or takes away if this is negative. -/
def Token.effect : Token → Int
  | .number _ | .reference _ | .key _ => 1
  | .operator _ => -1
  | .function name =>
    match Builtin.named? name with
    | some b => 1 - b.arity
    | none => 0
  | .punct _ => 0

namespace Expr

/-- By how many the arguments of calls exceed those that the functions take. -/
def surplusOf (calls : List (String × Nat)) : Int :=
  (calls.map fun c =>
    match Builtin.named? c.1 with
    | some b => (c.2 : Int) - b.arity
    | none => 0).sum

/-- By how many the arguments of all calls of built-in functions in a tree exceed those that the
functions take. Calls with too few arguments count against calls with too many. -/
def surplus (e : Expr) : Int := surplusOf e.calls

@[simp] theorem surplusOf_nil : surplusOf [] = 0 := rfl

@[simp] theorem surplusOf_append (cs ds : List (String × Nat)) :
    surplusOf (cs ++ ds) = surplusOf cs + surplusOf ds := by
  simp only [surplusOf, List.map_append, List.sum_append]

/-- A call of a built-in function has what the function does not take as its surplus. -/
theorem surplusOf_singleton {name : String} {b : Builtin} (hname : Builtin.named? name = some b)
    (count : Nat) : surplusOf [(name, count)] = count - b.arity := by
  simp [surplusOf, hname]

/-- Calls with as many arguments as the functions take have no surplus. -/
theorem surplus_eq_zero_of_fitsArity {e : Expr} (h : e.FitsArity) : e.surplus = 0 := by
  -- The induction is over the calls, for which it does not matter where in the tree they are.
  have hcalls : ∀ calls : List (String × Nat),
      (∀ c ∈ calls, ∀ b, Builtin.named? c.1 = some b → c.2 = b.arity) → surplusOf calls = 0 := by
    intro calls
    induction calls with
    | nil => exact fun _ => rfl
    | cons c rest ih =>
      intro hfit
      obtain ⟨hc, hrest⟩ := List.forall_mem_cons.1 hfit
      rw [← List.singleton_append, surplusOf_append, ih hrest]
      cases hname : Builtin.named? c.1 with
      | none => simp [surplusOf, hname]
      | some b => simp [surplusOf, hname, hc b hname]
  exact hcalls e.calls h

/-- The effects of the postorders of several trees, if those of each tree are known. -/
private theorem sum_effect_postorderAll {es : List Expr}
    (h : ∀ e ∈ es, (e.postorder.map Token.effect).sum = 1 + e.surplus) :
    ((postorderAll es).map Token.effect).sum = es.length + surplusOf (callsAll es) := by
  induction es with
  | nil => rfl
  | cons e rest ih =>
    obtain ⟨he, hrest⟩ := List.forall_mem_cons.1 h
    simp only [postorderAll, callsAll, List.map_append, List.sum_append, surplusOf_append,
      List.length_cons, he, ih hrest, surplus]
    omega

/-- A tree leaves one operand, and one more for each argument too many. -/
theorem sum_effect_postorder {e : Expr} (h : e.CallsBuiltins) :
    (e.postorder.map Token.effect).sum = 1 + e.surplus := by
  induction e using Expr.induct with
  | number x => rfl
  | reference name => rfl
  | key name => rfl
  | binary op left right ihleft ihright =>
    obtain ⟨hleft, hright⟩ := callsBuiltins_binary_iff.1 h
    -- An operator makes one operand out of the two that its sides leave.
    have hop : Token.effect (.operator op) = -1 := rfl
    simp only [postorder, calls, surplus, List.map_append, List.sum_append, surplusOf_append,
      List.map_cons, List.map_nil, List.sum_cons, List.sum_nil, hop] at ihleft ihright ⊢
    rw [ihleft hleft, ihright hright]
    omega
  | call name arguments ih =>
    obtain ⟨hargs, hsome⟩ := callsBuiltins_call_iff.1 h
    obtain ⟨b, hname⟩ := Option.isSome_iff_exists.1 hsome
    -- The arguments leave one operand each, of which the function takes as many as it always does.
    have heffect : Token.effect (.function name) = 1 - b.arity := by simp [Token.effect, hname]
    have hsum := sum_effect_postorderAll fun e he => ih e he (hargs e he)
    simp only [postorder, calls, surplus, List.map_append, List.sum_append, surplusOf_append,
      List.map_cons, List.map_nil, List.sum_cons, List.sum_nil, heffect, hsum,
      surplusOf_singleton hname]
    omega

/-! ### Trees with the same postorder -/

/-- The functions that a tree calls are those named in its postorder. -/
theorem function_mem_postorder_iff {e : Expr} {name : String} :
    .function name ∈ e.postorder ↔ ∃ count, (name, count) ∈ e.calls := by
  induction e using Expr.induct with
  | number x => simp [postorder, calls]
  | reference other => simp [postorder, calls]
  | key other => simp [postorder, calls]
  | binary op left right ihleft ihright =>
    simp [postorder, calls, ihleft, ihright, exists_or]
  | call function arguments ih =>
    -- The arguments first, since the call itself adds its own name at the end.
    have hall : .function name ∈ postorderAll arguments ↔
        ∃ count, (name, count) ∈ callsAll arguments := by
      induction arguments with
      | nil => simp [postorderAll, callsAll]
      | cons e rest ihrest =>
        obtain ⟨he, hrest⟩ := List.forall_mem_cons.1 ih
        simp [postorderAll, callsAll, he, ihrest hrest, exists_or]
    simp [postorder, calls, hall, exists_or]

/-- A tree with the postorder of a saturated one calls nothing but built-in functions, and its calls
have no surplus. -/
theorem surplus_eq_zero_of_postorder_eq {e f : Expr} (hf : f.Saturated)
    (h : f.postorder = e.postorder) : e.surplus = 0 := by
  have hcalls : e.CallsBuiltins := fun c hc => by
    -- The name of the call stands in the common postorder, so `f` calls it, too.
    have hmem : .function c.1 ∈ f.postorder := h ▸ function_mem_postorder_iff.2 ⟨c.2, hc⟩
    obtain ⟨count, hcount⟩ := function_mem_postorder_iff.1 hmem
    exact hf.1 (c.1, count) hcount
  -- Both trees have the same effects, and those of `f` add up to one.
  have hsum := sum_effect_postorder hcalls
  rw [← h, sum_effect_postorder hf.1, surplus_eq_zero_of_fitsArity hf.2] at hsum
  omega

end Expr

/-! ### Values -/

/-- An expression of the grammar is calculated by evaluating the postorder of its tree. -/
theorem calculate_result_of_derives {strictness : Strictness} {text : String} {ts : List Token}
    {e : Expr} (hscan : Token.scan strictness text = .ok ts) (h : Derives .expression ts [e])
    (env : Environment) :
    (calculate strictness false text env).result = (evaluate e.postorder env).1.mapError .eval := by
  have hrpn := Postfix.ofInfix_of_derives h strictness
  simp only [calculate, prepare, hscan, hrpn]
  rfl

/-- What the calculation of an expression of the grammar has as its value is the value of a
saturated tree with the same postorder. -/
theorem calculate_ok_iff_of_derives {strictness : Strictness} {text : String} {ts : List Token}
    {e : Expr} (hscan : Token.scan strictness text = .ok ts) (h : Derives .expression ts [e])
    {env : Environment} {v : Value} :
    (calculate strictness false text env).result = .ok v ↔
      ∃ f : Expr, f.Saturated ∧ f.postorder = e.postorder ∧ (f.eval env).1 = .ok v := by
  rw [calculate_result_of_derives hscan h env]
  constructor
  · intro hresult
    rcases hevaluate : evaluate e.postorder env with ⟨result, env'⟩
    rw [hevaluate] at hresult
    cases result with
    | error err => exact nomatch hresult
    | ok w =>
      obtain rfl := Except.ok.inj hresult
      -- The value is not that of `e`, unless all its calls have the right number of arguments.
      obtain ⟨f, hf, hpost, heval⟩ := Machine.evaluate_ok_iff.1 hevaluate
      exact ⟨f, hf, hpost, by rw [heval]⟩
  · rintro ⟨f, hf, hpost, heval⟩
    have hevaluate := Machine.evaluate_ok_iff.2 ⟨f, hf, hpost, Prod.ext heval rfl⟩
    rw [hevaluate]
    rfl

/-- If a call of a built-in function has the wrong number of arguments, the calculation fails
unless the operands can be regrouped: unless there is another tree with the same postorder, where
all calls have as many arguments as they should, and this tree has a value. There is none if the
arguments of all calls together are too few or too many. -/
theorem calculate_error_iff_of_misfit {strictness : Strictness} {text : String} {ts : List Token}
    {e : Expr} (hscan : Token.scan strictness text = .ok ts) (h : Derives .expression ts [e])
    (hmisfit : ¬ e.FitsArity) (env : Environment) :
    ((∃ err, (calculate strictness false text env).result = .error err) ↔
      ∀ f : Expr, f ≠ e → f.Saturated → f.postorder = e.postorder →
        ∃ err, (f.eval env).1 = .error err) ∧
    (e.surplus ≠ 0 → ∃ err, (calculate strictness false text env).result = .error err) := by
  have hok (v : Value) := @calculate_ok_iff_of_derives strictness text ts e hscan h env v
  -- A calculation that does not fail has a value, and so has another tree.
  have herror : (¬ ∃ f : Expr, f.Saturated ∧ f.postorder = e.postorder ∧
      ∃ v, (f.eval env).1 = .ok v) →
      ∃ err, (calculate strictness false text env).result = .error err := by
    intro hnone
    cases hresult : (calculate strictness false text env).result with
    | error err => exact ⟨err, rfl⟩
    | ok v =>
      obtain ⟨f, hf, hpost, heval⟩ := (hok v).1 hresult
      exact absurd ⟨f, hf, hpost, v, heval⟩ hnone
  refine ⟨⟨?_, fun hall => herror ?_⟩, fun hsurplus => herror ?_⟩
  · rintro ⟨err, herr⟩ f - hf hpost
    cases heval : (f.eval env).1 with
    | error err' => exact ⟨err', rfl⟩
    | ok v => exact nomatch herr.symm.trans ((hok v).2 ⟨f, hf, hpost, heval⟩)
  · -- The tree with a value is another one, since not all calls of `e` have enough arguments.
    rintro ⟨f, hf, hpost, v, heval⟩
    have hne : f ≠ e := fun heq => hmisfit (heq ▸ hf.2)
    obtain ⟨err, herr⟩ := hall f hne hf hpost
    exact nomatch herr.symm.trans heval
  · -- Regrouping would need the operands to come out even.
    rintro ⟨f, hf, hpost, -⟩
    exact hsurplus (Expr.surplus_eq_zero_of_postorder_eq hf hpost)

open Token Punct in
/-- `MAX(1) + 2` has one argument too few, and `+` finds only one operand. -/
theorem calculate_error_too_few :
    ∃ err, (calculate .strict false "MAX(1) + 2" .standard).result = .error err := by
  have hscan : Token.scan .strict "MAX(1) + 2" = .ok [function "MAX", punct leftParen, number 1,
    punct rightParen, operator .add, number 2] := by decide +kernel
  have hcall := @Derives.call "MAX" _ _ (by decide) (.argument (.of_le (.number 1) (Nat.zero_le 4)))
  have hsum := @Derives.binary 1 .add _ _ _ _ (by decide) (hcall.of_le (by decide))
    (.of_le (.number 2) (by decide))
  exact (calculate_error_iff_of_misfit hscan (hsum.of_le (by decide)) (by decide) .standard).2
    (by decide)

open Token Punct in
/-- `MAX(SQRT(4, 9))` gives one argument too many to `SQRT`, and one too few to `MAX`. It has a
value. -/
theorem calculate_ok_of_misfit :
    ∃ ts e, Token.scan .lenient "MAX(SQRT(4, 9))" = .ok ts ∧ Derives .expression ts [e] ∧
      ¬ e.FitsArity ∧
      (calculate .lenient false "MAX(SQRT(4, 9))" .standard).result = .ok (.number 4) := by
  have hroot := @Derives.call "SQRT" _ _ (by decide)
    (.moreArguments (.of_le (.number 4) (Nat.zero_le 4))
      (.argument (.of_le (.number 9) (Nat.zero_le 4))) (by simp))
  have hmax := @Derives.call "MAX" _ _ (by decide) (.argument (hroot.of_le (Nat.zero_le 4)))
  exact ⟨_, _, by decide +kernel, hmax.of_le (Nat.zero_le 4), by decide, by decide +kernel⟩

end Calculator
