import Calculator.Proofs.Faults
import Mathlib.Algebra.BigOperators.Group.List.Basic
import Mathlib.Algebra.Ring.Int.Defs

/-!
# The depth of the stack

How many operands are on the stack does not depend on their values. Every token that does not fail
takes off as many as its arity says and puts one back, so tokens that do not fail leave a number of
operands (`Token.depth`) that can be read off the tokens. Three errors are about this number alone:
there are too few operands for a token, too many at the end, or no tokens at all.

## Key results

- `length_of_step`, `length_of_run`: what a step and a run do to the depth
- `length_pos_of_run`: the stack is empty before the first token only
- `step_eq_stackUnderflow_iff`: when a token finds too few operands
- `evaluate_cases`: an evaluation goes through all tokens or stops at one that fails
- `evaluate_emptyExpression_iff`, `evaluate_trailingOperands_iff`: what is wrong at the end
- `evaluate_depth`: all of it about evaluations
-/

namespace Calculator

namespace Token

/-- How many operands a token takes off the stack. Punctuation marks and functions that do not exist
take none, and always fail. -/
def arity : Token → Nat
  | .operator _ => 2
  | .function name => (Builtin.named? name).elim 0 Builtin.arity
  | .number _ | .reference _ | .key _ | .punct _ => 0

/-- How many operands tokens leave on the stack, each of which puts one there for those it takes. -/
def depth (ts : List Token) : Int := (ts.map fun t => 1 - (t.arity : Int)).sum

@[simp] theorem depth_nil : depth [] = 0 := rfl

@[simp] theorem depth_cons (t : Token) (ts : List Token) :
    depth (t :: ts) = 1 - t.arity + depth ts := by
  simp only [depth, List.map_cons, List.sum_cons]

theorem arity_function {name : String} {b : Builtin} (h : Builtin.named? name = some b) :
    (function name).arity = b.arity := by
  rw [arity, h, Option.elim_some]

end Token

namespace Machine

variable {m final : Machine}

/-! ### Steps and runs -/

/-- A token that does not fail finds as many operands as it takes, and puts one on the stack. -/
theorem length_of_step {m' : Machine} {t : Token} {writes : List Event}
    (h : m.step t = .ok (m', writes)) :
    t.arity ≤ m.stack.length ∧ m'.stack.length + t.arity = m.stack.length + 1 := by
  cases steps_of_step h with
  | number x => exact ⟨Nat.zero_le _, rfl⟩
  | key name => exact ⟨Nat.zero_le _, rfl⟩
  | reference hget => exact ⟨Nat.zero_le _, rfl⟩
  | operator hstack happly =>
    rw [hstack]
    exact ⟨Nat.le_add_left 2 _, rfl⟩
  | function hname harity hcall =>
    rw [Token.arity_function hname, record_stack, List.length_cons, List.length_drop]
    exact ⟨harity, by omega⟩

/-- A run without a fault changes the depth of the stack by what can be read off its tokens. -/
theorem length_of_run {ts : List Token} {events : List Event}
    (h : m.run ts = (final, events, none)) :
    (final.stack.length : Int) = m.stack.length + Token.depth ts := by
  induction ts generalizing m events with
  | nil =>
    obtain rfl : m = final := congrArg Prod.fst h
    rw [Token.depth_nil, Int.add_zero]
  | cons t ts ih =>
    obtain ⟨between, writes, rest, hstep, hrun, -⟩ := exists_of_run_cons h
    -- The step changes the depth by `1 - t.arity`, and the run by the rest of the sum.
    obtain ⟨-, hlength⟩ := length_of_step hstep
    rw [ih hrun, Token.depth_cons]
    omega

/-- After a token that does not fail, and any others behind it, there is something on the stack. -/
theorem length_pos_of_run {ts : List Token} {events : List Event}
    (h : m.run ts = (final, events, none)) (hne : ts ≠ []) : 1 ≤ final.stack.length := by
  induction ts generalizing m events with
  | nil => exact absurd rfl hne
  | cons t ts ih =>
    obtain ⟨between, writes, rest, hstep, hrun, -⟩ := exists_of_run_cons h
    -- The last token decides, since it puts one operand on the stack.
    cases ts with
    | nil =>
      obtain rfl : between = final := congrArg Prod.fst hrun
      obtain ⟨henough, hlength⟩ := length_of_step hstep
      omega
    | cons u ts => exact ih hrun (List.cons_ne_nil u ts)

/-- A token finds too few operands exactly if it takes more than there are. The error has the text
of the token. -/
theorem step_eq_stackUnderflow_iff {t : Token} {c : String} :
    m.step t = .error (.stackUnderflow c) ↔ t.text = c ∧ m.stack.length < t.arity := by
  constructor
  · intro h
    cases faults_of_step h with
    | fewOperands hstack => exact ⟨rfl, hstack⟩
    | fewArguments hname hstack => exact ⟨rfl, (Token.arity_function hname).symm ▸ hstack⟩
  · rintro ⟨rfl, hfew⟩
    cases t with
    | number | reference | key | punct => exact absurd hfew (Nat.not_lt_zero _)
    | operator op =>
      -- An operator fails on an empty stack and on a single operand.
      rcases hstack : m.stack with _ | ⟨b, _ | ⟨a, below⟩⟩
      · simp only [step, hstack, Token.text]
      · simp only [step, hstack, Token.text]
      · rw [hstack] at hfew
        exact absurd hfew (Nat.not_lt.2 (Nat.le_add_left 2 _))
    | function name =>
      cases hname : Builtin.named? name with
      | none =>
        rw [Token.arity, hname] at hfew
        exact absurd hfew (Nat.not_lt_zero _)
      | some b =>
        rw [Token.arity_function hname] at hfew
        simp only [step, hname, call, if_pos hfew, Token.text, Builtin.named?_eq_some_iff.1 hname]

/-! ### Ends of evaluations -/

/-- What is left on the stack is the value, or there is nothing or too much. -/
theorem value_cases (m : Machine) :
    (m.stack.length = 0 ∧ m.value = .error .emptyExpression) ∨
      (m.stack.length = 1 ∧ ∃ v, m.value = .ok v) ∨
      (2 ≤ m.stack.length ∧ m.value = .error (.trailingOperands m.stack.length)) := by
  rcases hstack : m.stack with _ | ⟨v, _ | ⟨w, below⟩⟩
  · exact .inl ⟨rfl, by simp only [value, hstack]⟩
  · exact .inr (.inl ⟨rfl, v, by simp only [value, hstack]⟩)
  · exact .inr (.inr ⟨Nat.le_add_left 2 _, by simp only [value, hstack]⟩)

/-- A token that fails is about itself, and not about the end of the evaluation. -/
theorem Faults.ne {t : Token} {e : EvalError} (h : m.Faults t e) :
    e ≠ .emptyExpression ∧ ∀ n, e ≠ .trailingOperands n := by
  cases h <;> exact ⟨nofun, nofun⟩

/-- A run stops at a token that fails. -/
theorem run_of_step_error {before : List Token} {t : Token} {events : List Event} {e : EvalError}
    (h : m.run before = (final, events, none)) (hstep : final.step t = .error e)
    (rest : List Token) : m.run (before ++ t :: rest) = (final, events, some e) := by
  simp only [run_append, h, run, hstep, List.append_nil]

variable {rpn : List Token} {env : Environment}

/-- An evaluation goes through all tokens and has what is left, or it stops at the first token that
fails. -/
theorem evaluate_cases (rpn : List Token) (env : Environment) :
    (∃ final events, (start env false).run rpn = (final, events, none) ∧
        (evaluate rpn env).1 = final.value) ∨
      ∃ before t rest final events e, rpn = before ++ t :: rest ∧
        (start env false).run before = (final, events, none) ∧ final.step t = .error e ∧
        ((start env false).run rpn).2.2 = some e ∧ (evaluate rpn env).1 = .error e := by
  obtain ⟨before, after, final, events, hsplit, hbefore, hend⟩ := run_cases (start env false) rpn
  rcases hend with ⟨-, hrun⟩ | ⟨t, rest, e, rfl, hstep, hrun⟩
  · exact .inl ⟨final, events, hrun, by rw [evaluate, eval_of_run hrun]; rfl⟩
  · exact .inr ⟨before, t, rest, final, events, e, hsplit, hbefore, hstep, congrArg (·.2.2) hrun,
      by rw [evaluate, eval_of_run hrun]; rfl⟩

/-- The depth after tokens that an evaluation begins with, if none of them fails. -/
theorem length_of_run_start {ts : List Token} {events : List Event}
    (h : (start env false).run ts = (final, events, none)) :
    (final.stack.length : Int) = Token.depth ts :=
  (length_of_run h).trans (Int.zero_add _)

/-- There is nothing to evaluate exactly if there are no tokens. -/
theorem evaluate_emptyExpression_iff :
    (evaluate rpn env).1 = .error .emptyExpression ↔ rpn = [] := by
  constructor
  · intro h
    rcases evaluate_cases rpn env with ⟨final, events, hrun, hvalue⟩ |
      ⟨before, t, rest, final, events, e, -, -, hstep, -, herror⟩
    · rw [hvalue] at h
      by_contra hne
      -- With any token the stack would not be empty at the end.
      have hpos := length_pos_of_run hrun hne
      rcases final.value_cases with ⟨hlength, -⟩ | ⟨-, v, hv⟩ | ⟨-, htrailing⟩
      · omega
      · exact nomatch h.symm.trans hv
      · exact nomatch h.symm.trans htrailing
    · -- No token fails with this error.
      obtain rfl := Except.error.inj (h.symm.trans herror)
      exact absurd rfl (faults_of_step hstep).ne.1
  · rintro rfl
    rfl

/-- Operands are left over exactly if no token fails and the tokens leave more than one. -/
theorem evaluate_trailingOperands_iff {n : Nat} :
    (evaluate rpn env).1 = .error (.trailingOperands n) ↔
      ((start env false).run rpn).2.2 = none ∧ Token.depth rpn = n ∧ 2 ≤ n := by
  rcases evaluate_cases rpn env with ⟨final, events, hrun, hvalue⟩ |
    ⟨before, t, rest, final, events, e, -, -, hstep, hfault, herror⟩
  · rw [hvalue, hrun, ← length_of_run_start hrun]
    -- The end has nothing, one value or too much, and the depth says which.
    rcases final.value_cases with ⟨hlength, hempty⟩ | ⟨hlength, v, hv⟩ | ⟨hlength, htrailing⟩
    · refine ⟨fun h => (nomatch hempty.symm.trans h), fun ⟨_, hn, hmany⟩ => ?_⟩
      omega
    · refine ⟨fun h => (nomatch hv.symm.trans h), fun ⟨_, hn, hmany⟩ => ?_⟩
      omega
    · rw [htrailing]
      constructor
      · rintro ⟨⟩
        exact ⟨rfl, rfl, hlength⟩
      · rintro ⟨-, hn, -⟩
        rw [Int.ofNat_inj.1 hn]
  · rw [herror, hfault]
    refine ⟨fun h => ?_, fun h => nomatch h.1⟩
    exact absurd (Except.error.inj h) ((faults_of_step hstep).ne.2 n)

/-- There is a value exactly if no token fails and the tokens leave one operand. -/
theorem exists_evaluate_ok_iff :
    (∃ v, (evaluate rpn env).1 = .ok v) ↔
      ((start env false).run rpn).2.2 = none ∧ Token.depth rpn = 1 := by
  rcases evaluate_cases rpn env with ⟨final, events, hrun, hvalue⟩ |
    ⟨before, t, rest, final, events, e, -, -, -, hfault, herror⟩
  · rw [hvalue, hrun, ← length_of_run_start hrun]
    rcases final.value_cases with ⟨hlength, hempty⟩ | ⟨hlength, v, hv⟩ | ⟨hlength, htrailing⟩
    · simp [hempty, hlength]
    · simp [hv, hlength]
    · simp [htrailing]
      omega
  · simp [herror, hfault]

/-- There are too few operands exactly if the first token that fails takes more than there are. -/
theorem evaluate_stackUnderflow_iff {c : String} :
    (evaluate rpn env).1 = .error (.stackUnderflow c) ↔
      ∃ before t rest, rpn = before ++ t :: rest ∧ ((start env false).run before).2.2 = none ∧
        t.text = c ∧ Token.depth before < t.arity := by
  constructor
  · intro h
    rcases evaluate_cases rpn env with ⟨final, events, -, hvalue⟩ |
      ⟨before, t, rest, final, events, e, rfl, hbefore, hstep, -, herror⟩
    · -- The end of an evaluation never finds too few operands.
      rw [hvalue] at h
      rcases final.value_cases with ⟨-, hempty⟩ | ⟨-, v, hv⟩ | ⟨-, htrailing⟩
      · exact nomatch h.symm.trans hempty
      · exact nomatch h.symm.trans hv
      · exact nomatch h.symm.trans htrailing
    · obtain rfl := Except.error.inj (h.symm.trans herror)
      obtain ⟨htext, hfew⟩ := step_eq_stackUnderflow_iff.1 hstep
      refine ⟨before, t, rest, rfl, congrArg (·.2.2) hbefore, htext, ?_⟩
      rw [← length_of_run_start hbefore]
      exact Int.ofNat_lt.2 hfew
  · rintro ⟨before, t, rest, rfl, hfree, htext, hfew⟩
    rcases hbefore : (start env false).run before with ⟨final, events, fault?⟩
    obtain rfl : fault? = none := by simpa only [hbefore] using hfree
    rw [← length_of_run_start hbefore] at hfew
    -- The depth after `before` is that of the machine, so `t` fails on it.
    have hstep := step_eq_stackUnderflow_iff.2 ⟨htext, Int.ofNat_lt.1 hfew⟩
    rw [evaluate, eval_of_run (run_of_step_error hbefore hstep rest)]
    rfl

/-- The depth of the stack after tokens that do not fail is one more for each token less the
operands that it takes, and it is never zero again after the first token. An evaluation finds
nothing exactly if there are no tokens, too much exactly if no token fails and more than one operand
is left, and too little exactly if the first token that fails takes more operands than there are; no
other token fails for that, and neither does the end, where one operand is the value. -/
theorem evaluate_depth (rpn : List Token) (env : Environment) :
    let run k := (start env false).run (rpn.take k)
    (∀ k ≤ rpn.length, (run k).2.2 = none →
      ((run k).1.stack.length : Int) = Token.depth (rpn.take k) ∧
        (1 ≤ k → 1 ≤ Token.depth (rpn.take k))) ∧
      ((evaluate rpn env).1 = .error .emptyExpression ↔ rpn = []) ∧
      (∀ n, (evaluate rpn env).1 = .error (.trailingOperands n) ↔
        (run rpn.length).2.2 = none ∧ Token.depth rpn = n ∧ 2 ≤ n) ∧
      (∀ c, (evaluate rpn env).1 = .error (.stackUnderflow c) ↔
        ∃ k t, rpn[k]? = some t ∧ (run k).2.2 = none ∧ t.text = c ∧
          Token.depth (rpn.take k) < t.arity) ∧
      ((∃ v, (evaluate rpn env).1 = .ok v) ↔
        (run rpn.length).2.2 = none ∧ Token.depth rpn = 1) := by
  intro run
  have hall : run rpn.length = (start env false).run rpn := by
    simp only [run, List.take_length]
  rw [hall]
  refine ⟨fun k hk hfree => ?_, evaluate_emptyExpression_iff,
    fun n => evaluate_trailingOperands_iff, fun c => evaluate_stackUnderflow_iff.trans ?_,
    exists_evaluate_ok_iff⟩
  · rcases hrun : run k with ⟨final, events, fault?⟩
    obtain rfl : fault? = none := by simpa only [hrun] using hfree
    have hlength := length_of_run_start hrun
    refine ⟨hlength, fun hpos => ?_⟩
    have hne : rpn.take k ≠ [] := List.ne_nil_of_length_pos (by rw [List.length_take]; omega)
    have hstack := length_pos_of_run hrun hne
    omega
  · -- Tokens before a position are the tokens in front of the one that stands there.
    constructor
    · rintro ⟨before, t, rest, rfl, hfree, htext, hfew⟩
      have htake : (before ++ t :: rest).take before.length = before := List.take_left
      exact ⟨before.length, t, by simp, by simpa only [run, htake] using hfree, htext,
        htake.symm ▸ hfew⟩
    · rintro ⟨k, t, ht, hfree, htext, hfew⟩
      obtain ⟨hk, rfl⟩ := List.getElem?_eq_some_iff.1 ht
      exact ⟨rpn.take k, rpn[k], rpn.drop (k + 1), by simp, hfree, htext, hfew⟩

/-- In `1 SQRT +`, the square root has an operand and the sum has one too few. -/
theorem evaluate_depth_missing_operand :
    let rpn : List Token := [.number 1, .function "SQRT", .operator .add]
    ((start .standard false).run (rpn.take 2)).2.2 = none ∧ Token.depth (rpn.take 2) = 1 ∧
      ((start .standard false).run (rpn.take 2)).1.stack.length = 1 ∧
      (evaluate rpn .standard).1 = .error (.stackUnderflow "+") := by
  intro rpn
  obtain ⟨hdepth, -, -, hunderflow, -⟩ := evaluate_depth rpn .standard
  have hfree : ((start .standard false).run (rpn.take 2)).2.2 = none := by decide +kernel
  have htwo : Token.depth (rpn.take 2) = 1 := by decide +kernel
  obtain ⟨hlength, -⟩ := hdepth 2 (by decide) hfree
  rw [htwo] at hlength
  refine ⟨hfree, htwo, Int.ofNat_inj.1 hlength,
    (hunderflow "+").2 ⟨2, .operator .add, rfl, hfree, rfl, ?_⟩⟩
  rw [htwo]
  decide

end Machine

end Calculator
