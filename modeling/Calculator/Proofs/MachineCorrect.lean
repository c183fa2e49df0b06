import Calculator.Proofs.ExprTree
import Calculator.Proofs.MachineRun

/-!
# The stack machine evaluates trees

Evaluating the postorder of a tree gives the value of the tree, or the error that its evaluation
ends with, and leads to the same environment.

A subtree is evaluated in the middle of a program, so `Machine.Computes` says how a run over some
of the tokens ends on top of any stack: it puts values there, or it ends with an error, and either
way it leads to some environment. There is one lemma for each way in which a postorder is put
together, and the induction over the tree follows `Expr.eval`.

## Key results

- `Computes.append`, `Computes.append_error`: neighbouring sequences of tokens
- `Computes.operator`, `Computes.function`: the token that ends the postorder of a node
- `computes_postorder`: the machine runs over the postorder of a tree as the tree is evaluated
- `evaluate_of_computes`: from a run over all tokens to the evaluation
- `evaluate_postorder`: the machine and the tree have the same result and the same environment
-/

namespace Calculator.Machine

/-- How a run over tokens ends: with values above what was on the stack, the last one on top, or
with an error; and the environment it leads to. -/
def Computes (m : Machine) (ts : List Token) (env : Environment) :
    Except EvalError (List Value) → Prop
  | .ok values =>
    ∃ events, m.run ts = (⟨env, values.reverse ++ m.stack, m.tracing⟩, events, none)
  | .error e => ∃ final events, m.run ts = (final, events, some e) ∧ final.env = env

/-! ### Putting runs together -/

namespace Computes

variable {m : Machine} {ts us : List Token} {env env' : Environment}

/-- Values stay below those that are computed after them. -/
theorem append {values : List Value} {result : Except EvalError (List Value)}
    (hts : m.Computes ts env (.ok values))
    (hus : Computes ⟨env, values.reverse ++ m.stack, m.tracing⟩ us env' result) :
    m.Computes (ts ++ us) env' (result.map (values ++ ·)) := by
  obtain ⟨events, hrun⟩ := hts
  cases result with
  | error e =>
    -- The second run ends early and leaves its own environment.
    obtain ⟨final, more, hmore, henv⟩ := hus
    refine ⟨final, events ++ more, ?_, henv⟩
    rw [run_append, hrun]
    simp only [hmore]
  | ok rest =>
    -- The later values lie above the earlier ones.
    obtain ⟨more, hmore⟩ := hus
    refine ⟨events ++ more, ?_⟩
    rw [run_append, hrun]
    simp only [hmore, List.reverse_append, List.append_assoc]

/-- Nothing is evaluated after a fault. -/
theorem append_error {e : EvalError} (hts : m.Computes ts env (.error e)) :
    m.Computes (ts ++ us) env (.error e) := by
  obtain ⟨final, events, hrun, henv⟩ := hts
  refine ⟨final, events, ?_, henv⟩
  rw [run_append, hrun]

/-- A last token that turns the values into a single one. -/
theorem concat {values : List Value} {t : Token} {value : Value} {writes : List Event}
    (hts : m.Computes ts env (.ok values))
    (hstep : step ⟨env, values.reverse ++ m.stack, m.tracing⟩ t =
      .ok (⟨env', value :: m.stack, m.tracing⟩, writes)) :
    m.Computes (ts ++ [t]) env' (.ok [value]) := by
  obtain ⟨events, hrun⟩ := hts
  refine ⟨events ++ (writes ++ report ⟨env', value :: m.stack, m.tracing⟩ t), ?_⟩
  rw [run_append, hrun]
  simp only [run_singleton_of_ok hstep]
  rfl

/-- A last token that fails on the values. -/
theorem concat_error {values : List Value} {t : Token} {e : EvalError}
    (hts : m.Computes ts env (.ok values))
    (hstep : step ⟨env, values.reverse ++ m.stack, m.tracing⟩ t = .error e) :
    m.Computes (ts ++ [t]) env (.error e) := by
  obtain ⟨events, hrun⟩ := hts
  refine ⟨⟨env, values.reverse ++ m.stack, m.tracing⟩, events ++ [], ?_, rfl⟩
  rw [run_append, hrun]
  simp only [run_singleton_of_error hstep]

theorem nil (m : Machine) : m.Computes [] m.env (.ok []) := ⟨[], rfl⟩

/-- A token that puts its value on the stack computes it. -/
theorem operand {t : Token} {value : Value} (hstep : m.step t = .ok (m.push value, [])) :
    m.Computes [t] m.env (.ok [value]) :=
  (nil m).concat hstep

/-- An operator applies to the two values computed before it, the first of them on its left. -/
theorem operator {a b : Value} (hts : m.Computes ts env (.ok [a, b])) (op : Operator) :
    m.Computes (ts ++ [.operator op]) env ((op.apply a b).map fun value => [value]) := by
  have hstep := step_operator env a b m.stack m.tracing op
  -- What comes of the operator comes of the last token.
  cases happly : op.apply a b with
  | error e => exact hts.concat_error (by rw [happly] at hstep; exact hstep)
  | ok value => exact hts.concat (by rw [happly] at hstep; exact hstep)

/-- A function name calls the function with the values computed before it. Looking the name up
fails only now, when the arguments have been evaluated. -/
theorem function {values : List Value} {name : String} (hts : m.Computes ts env (.ok values))
    (hlength : ∀ b, Builtin.named? name = some b → values.length = b.arity) :
    m.Computes (ts ++ [.function name]) (Expr.apply name values env).2
      ((Expr.apply name values env).1.map fun value => [value]) := by
  -- Both sides look the name up, then call, then record what the call asks for.
  unfold Expr.apply
  cases hname : Builtin.named? name with
  | none =>
    refine hts.concat_error ?_
    simp only [step, hname]
  | some b =>
    have hstep := step_function_named env m.stack m.tracing hname (hlength b hname)
    simp only
    cases hcall : b.call values with
    | error e => exact hts.concat_error (by rw [hcall] at hstep; exact hstep)
    | ok result =>
      -- Without a binding the environment stays, and with one both sides make it.
      obtain ⟨value, write?⟩ := result
      rw [hcall] at hstep
      cases write? with
      | none => exact hts.concat hstep
      | some write => exact hts.concat hstep

end Computes

/-! ### Trees -/

/-- The trees of a list are computed one after the other if each of them is computed. -/
theorem computes_postorderAll {es : List Expr}
    (h : ∀ e ∈ es, ∀ m : Machine,
      m.Computes e.postorder (e.eval m.env).2 ((e.eval m.env).1.map fun value => [value]))
    (m : Machine) :
    m.Computes (Expr.postorderAll es) (Expr.evalAll es m.env).2 (Expr.evalAll es m.env).1 := by
  induction es generalizing m with
  | nil => exact .nil m
  | cons e rest ih =>
    have hhead := h e (List.mem_cons_self ..) m
    simp only [Expr.postorderAll, Expr.evalAll]
    rcases hval : e.eval m.env with ⟨result, env₁⟩
    rw [hval] at hhead
    cases result with
    -- The trees behind the one that fails are not reached.
    | error err => exact hhead.append_error
    | ok value =>
      have htail := ih (fun f hf => h f (List.mem_cons_of_mem e hf))
        ⟨env₁, [value].reverse ++ m.stack, m.tracing⟩
      -- The environment that the first tree leaves is the one that the others start in.
      have hboth := hhead.append htail
      rcases hvals : Expr.evalAll rest env₁ with ⟨results, env₂⟩
      rw [hvals] at hboth
      cases results with
      | error err => simp only [hvals]; exact hboth
      | ok values => simp only [hvals]; exact hboth

/-- The machine runs over the postorder of a tree as the tree is evaluated, on top of any
stack. -/
theorem computes_postorder (m : Machine) {e : Expr} (h : e.FitsArity) :
    m.Computes e.postorder (e.eval m.env).2 ((e.eval m.env).1.map fun value => [value]) := by
  induction e using Expr.induct generalizing m with
  | number x => exact .operand rfl
  | key name => exact .operand rfl
  -- An unbound name fails on both sides, and leaves the environment as it was.
  | reference name =>
    simp only [Expr.postorder, Expr.eval]
    cases hget : m.env.get? name with
    | none => exact (Computes.nil m).concat_error (by simp [step, hget])
    | some value => exact .operand (by simp only [step, hget])
  | binary op left right ihleft ihright =>
    obtain ⟨hfitleft, hfitright⟩ := Expr.fitsArity_binary_iff.1 h
    have hleft := ihleft m hfitleft
    simp only [Expr.postorder, Expr.eval]
    rcases hval : left.eval m.env with ⟨result, env₁⟩
    rw [hval] at hleft
    cases result with
    | error err =>
      -- Neither the right operand nor the operator is reached.
      exact hleft.append_error.append_error
    | ok a =>
      have hright := ihright ⟨env₁, [a].reverse ++ m.stack, m.tracing⟩ hfitright
      have hboth := hleft.append hright
      rcases hval' : right.eval env₁ with ⟨result, env₂⟩
      rw [hval'] at hboth
      cases result with
      | error err => simp only [hval']; exact hboth.append_error
      | ok b => simp only [hval']; exact hboth.operator op
  | call function arguments ih =>
    obtain ⟨hfitargs, hfit⟩ := Expr.fitsArity_call_iff.1 h
    have hargs := computes_postorderAll (fun e he m => ih e he m (hfitargs e he)) m
    simp only [Expr.postorder, Expr.eval]
    cases hvalues : Expr.evalAll arguments m.env with
    | mk results env₁ =>
      rw [hvalues] at hargs
      cases results with
      | error err => exact hargs.append_error
      | ok values =>
        -- A known function finds as many values as the tree has arguments.
        refine hargs.function fun b hb => ?_
        rw [Expr.length_of_evalAll hvalues, hfit b hb]

/-! ### Evaluations -/

/-- An evaluation that computes a single value, or fails, has this as its result. -/
theorem evaluate_of_computes {rpn : List Token} {env env' : Environment}
    {result : Except EvalError Value}
    (h : (start env false).Computes rpn env' (result.map fun value => [value])) :
    evaluate rpn env = (result, env') := by
  cases result with
  | error e =>
    obtain ⟨final, events, hrun, rfl⟩ := h
    rw [evaluate, eval_of_run hrun]
    rfl
  | ok value =>
    obtain ⟨events, hrun⟩ := h
    rw [evaluate, eval_of_run hrun]
    rfl

/-- Evaluating the postorder of a tree evaluates the tree: with the same value or the same error,
and to the same environment. -/
theorem evaluate_postorder {e : Expr} (h : e.FitsArity) (env : Environment) :
    evaluate e.postorder env = e.eval env :=
  evaluate_of_computes (computes_postorder (start env false) h)

open Token in
/-- `F(SET(#A, 1), IF($A, $A + 1, $B))`: both branches are evaluated before `IF` is called, and all
arguments before `F` is looked up. -/
theorem evaluate_unbound_branch :
    evaluate
      [key "A", number 1, function "SET", reference "A", reference "A", number 1, operator .add,
        reference "B", function "IF", function "F"] (.ofDefaults .empty) =
      (.error (.undefinedVariable "B"), (Environment.ofDefaults .empty).set "A" (.number 1)) := by
  have hfit : (Expr.call "F" [.call "SET" [.key "A", .number 1],
      .call "IF" [.reference "A", .binary .add (.reference "A") (.number 1),
        .reference "B"]]).FitsArity := by decide
  exact (evaluate_postorder hfit (.ofDefaults .empty)).trans rfl

end Calculator.Machine
