import Calculator.Proofs.Dependence
import Calculator.Session

/-!
# Machines that are used again, and reports of single steps

A machine can be used for one evaluation after the other. An evaluation that fails may leave
anything on the stack, but the next one starts with an empty stack and takes over nothing but the
environment. Nor does it make a difference whether single steps are reported: the reports are added
between the other events, one for each token that does not fail.

## Key results

- `Machine.filter_isStep_run`: the reports of the single steps of a run
- `Machine.eval_eq_evaluate`: an evaluation on any machine is one by itself
- `Machine.env_reuse`: a machine that is used again hands on nothing but its environment
- `Session.execute_eq_calculate`: sessions calculate what is calculated without them
- `Machine.eval_reuse`: all of it about one more evaluation on a machine that has been used
-/

namespace Calculator

namespace Machine

/-! ### Reports of single steps -/

/-- The report of the token at a position: how many operands there are after the tokens up to it,
and the topmost ones. -/
def stepReport (m : Machine) (ts : List Token) (position : Nat) (t : Token) : Event :=
  let reached := (m.run (ts.take (position + 1))).1
  .step t reached.stack.length (reached.stack.take 5)

/-- The report of the first token is about the machine to which it leads. -/
theorem stepReport_zero {m between : Machine} {t : Token} {writes : List Event}
    (h : m.step t = .ok (between, writes)) (ts : List Token) :
    m.stepReport (t :: ts) 0 t = .step t between.stack.length (between.stack.take 5) := by
  simp only [stepReport, List.take_succ_cons, List.take_zero, run_singleton_of_ok h]

/-- The other tokens go on from the machine to which the first one leads. -/
theorem stepReport_succ {m between : Machine} {t : Token} {writes : List Event}
    (h : m.step t = .ok (between, writes)) (ts : List Token) (position : Nat) (u : Token) :
    m.stepReport (t :: ts) (position + 1) u = between.stepReport ts position u := by
  simp only [stepReport, List.take_succ_cons, run, h]

/-- What a token reports itself is no step. -/
theorem filter_isStep_of_step {m m' : Machine} {t : Token} {writes : List Event}
    (h : m.step t = .ok (m', writes)) : writes.filter Event.isStep = [] := by
  rcases set_or_not_of_step h with ⟨name, value, below, -, -, -, rfl, -⟩ | ⟨-, rfl, -⟩
  · rfl
  · rfl

/-- A run without a fault reports each of its tokens if it reports single steps, and none of them
otherwise. -/
theorem filter_isStep_run {m final : Machine} {ts : List Token} {events : List Event}
    (h : m.run ts = (final, events, none)) :
    events.filter Event.isStep =
      if m.tracing then ts.zipIdx.map fun (t, k) => m.stepReport ts k t else [] := by
  induction ts generalizing m events with
  | nil =>
    obtain rfl : [] = events := congrArg (·.2.1) h
    split <;> rfl
  | cons t ts ih =>
    obtain ⟨between, writes, rest, hstep, hrun, rfl⟩ := exists_of_run_cons h
    have htracing : between.tracing = m.tracing := (env_tracing_of_step hstep).2
    rw [List.filter_append, List.filter_append, filter_isStep_of_step hstep, ih hrun, report,
      htracing]
    -- The first report is about the first step, and the others are those of the rest of the run.
    by_cases hon : m.tracing = true
    · simp only [hon, ↓reduceIte]
      rw [List.zipIdx_cons', List.map_cons, List.map_map, stepReport_zero hstep]
      refine congrArg (_ :: ·) (List.map_congr_left fun p _ => ?_)
      exact (stepReport_succ hstep ts p.2 p.1).symm
    · simp only [hon]
      rfl

/-- The tokens of an evaluation before the first that fails, and the reports of them. -/
theorem exists_filter_isStep_eval (env : Environment) (tracing : Bool) (rpn : List Token) :
    let evaluation := (start env tracing).eval rpn
    ∃ before after final events, rpn = before ++ after ∧
      (start env tracing).run before = (final, events, none) ∧
      ((after = [] ∧ evaluation.result = final.value) ∨
        ∃ t rest e, after = t :: rest ∧ final.step t = .error e ∧ evaluation.result = .error e) ∧
      evaluation.events.filter Event.isStep =
        if tracing then before.zipIdx.map fun (t, k) => (start env tracing).stepReport before k t
        else [] := by
  obtain ⟨before, after, final, events, hsplit, hbefore, hend⟩ := run_cases (start env tracing) rpn
  have hsteps := filter_isStep_run hbefore
  -- The reports are those of the tokens that did not fail, in both cases.
  rcases hend with ⟨hafter, hrun⟩ | ⟨t, rest, e, hafter, herror, hrun⟩
  · rw [eval_of_run hrun]
    exact ⟨before, after, final, events, hsplit, hbefore, .inl ⟨hafter, rfl⟩, hsteps⟩
  · rw [eval_of_run hrun]
    exact ⟨before, after, final, events, hsplit, hbefore, .inr ⟨t, rest, e, hafter, herror, rfl⟩,
      hsteps⟩

/-- Without reports of single steps there are none. -/
theorem filter_isStep_eval_quiet (env : Environment) (rpn : List Token) :
    ((start env false).eval rpn).events.filter (!·.isStep) =
      ((start env false).eval rpn).events := by
  obtain ⟨before, after, final, events, -, -, -, hsteps⟩ := exists_filter_isStep_eval env false rpn
  -- None of the events is a step.
  rw [List.filter_eq_self]
  intro e he
  simpa using List.filter_eq_nil_iff.1 hsteps e he

/-! ### Machines that are used again -/

/-- A machine whose reports of single steps are switched on or off. -/
def setTracing (m : Machine) (tracing : Bool) : Machine := { m with tracing := tracing }

/-- The machine after evaluations one after the other, for each of which the reports of single steps
are switched on or off. What an evaluation leaves on the stack may depend in any way on how it
went. -/
def reuse (residue : Evaluation → List Value) (m : Machine) : List (Bool × List Token) → Machine
  | [] => m
  | (tracing, rpn) :: rest =>
    let evaluation := (m.setTracing tracing).eval rpn
    reuse residue { evaluation.machine with stack := residue evaluation } rest

end Machine

/-- The environment after sequences of tokens, each evaluated by itself. -/
def evaluateAll (env : Environment) (rpns : List (List Token)) : Environment :=
  rpns.foldl (fun env rpn => (evaluate rpn env).2) env

namespace Machine

/-- An evaluation on any machine is one by itself. -/
theorem eval_eq_evaluate (m : Machine) (rpn : List Token) :
    ((m.eval rpn).result, (m.eval rpn).machine.env) = evaluate rpn m.env := by
  -- The two machines have the same environment, so every reference finds the same value.
  have hbound : ∀ name, .reference name ∈ rpn → m.env.get? name = m.env.get? name :=
    fun _ _ => rfl
  rw [evaluate_eq_setAll m hbound]
  exact Prod.ext rfl (eval_agree m m hbound).2.1

/-- A machine that is used again has the environment that evaluations by themselves lead to. -/
theorem env_reuse (residue : Evaluation → List Value) (m : Machine)
    (history : List (Bool × List Token)) :
    (m.reuse residue history).env = evaluateAll m.env (history.map Prod.snd) := by
  induction history generalizing m with
  | nil => rfl
  | cons run rest ih =>
    -- What is left on the stack is not handed on, so only the environment of the first evaluation
    -- counts.
    have hfirst := congrArg Prod.snd (eval_eq_evaluate (m.setTracing run.1) run.2)
    exact (ih _).trans (congrArg (evaluateAll · (rest.map Prod.snd)) hfirst)

end Machine

/-- A session calculates what is calculated without it, whether it reports single steps or not. -/
theorem Session.execute_eq_calculate (s : Session) (line : String) :
    let c := calculate s.strictness false line s.env
    (s.execute line).1 = c.result ∧ (s.execute line).2.1 = { s with env := c.env } := by
  obtain ⟨hresult, henv, -⟩ :=
    calculate_agree s.strictness line false s.tracing fun _ _ _ _ => rfl
  refine ⟨hresult, ?_⟩
  simp only [execute]
  rw [henv, ← env_calculate]

namespace Machine

/-- One more evaluation on a machine that has been used for any others, whether these had a value or
not. It has the result of an evaluation by itself and leaves the same environment. If single steps
are reported, then the other reports are those of a machine that has never reported any, and the
reports of single steps are about the tokens before the first that fails. So sessions calculate what
is calculated without them. -/
theorem eval_reuse (residue : Evaluation → List Value) (m : Machine)
    (history : List (Bool × List Token)) (tracing : Bool) (rpn : List Token) :
    let env := evaluateAll m.env (history.map Prod.snd)
    let evaluation := ((m.reuse residue history).setTracing tracing).eval rpn
    let untraced := m.reuse residue (history.map fun run => (false, run.2))
    let quiet := (untraced.setTracing false).eval rpn
    (evaluation.result, evaluation.machine.env) = evaluate rpn env ∧
      evaluation.events.filter (!·.isStep) = quiet.events ∧
      (∃ before after final events, rpn = before ++ after ∧
        (start env tracing).run before = (final, events, none) ∧
        ((after = [] ∧ evaluation.result = final.value) ∨
          ∃ t rest e, after = t :: rest ∧ final.step t = .error e ∧ evaluation.result = .error e) ∧
        evaluation.events.filter Event.isStep =
          if tracing then before.zipIdx.map fun (t, k) => (start env tracing).stepReport before k t
          else []) ∧
      ∀ (s : Session) (line : String),
        let c := calculate s.strictness false line s.env
        (s.execute line).1 = c.result ∧ (s.execute line).2.1 = { s with env := c.env } := by
  intro env evaluation untraced quiet
  have henv : (m.reuse residue history).env = env := env_reuse residue m history
  have henv' : untraced.env = env := by
    simp only [untraced, env_reuse, List.map_map]
    rfl
  -- Evaluations start on an empty stack, so nothing of the machine is left but its environment.
  have hevaluation : evaluation = (start env tracing).eval rpn := by
    rw [← henv]
    rfl
  have hquiet : quiet = (start env false).eval rpn := by
    rw [← henv']
    rfl
  rw [hevaluation, hquiet]
  refine ⟨eval_eq_evaluate _ rpn, ?_, exists_filter_isStep_eval env tracing rpn,
    Session.execute_eq_calculate⟩
  rw [← filter_isStep_eval_quiet]
  exact (eval_agree (start env false) (start env tracing) fun _ _ => rfl).2.2.1

/-- Two numbers without an operator stay on the stack, and the next evaluation does not find them.
-/
example :
    let m := (start .standard false).reuse (·.machine.stack) [(true, [.number 1, .number 2])]
    m.stack = [.number 2, .number 1] ∧ (m.eval [.number 3]).result = .ok (.number 3) := by
  decide +kernel

end Machine

end Calculator
