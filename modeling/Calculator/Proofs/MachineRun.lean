import Calculator.Machine

/-!
# Runs of the stack machine

How runs over neighbouring sequences of tokens compose, and what a single step does to a stack
whose upper part is known.

## Key results

- `run_append`: the run over `ts ++ us` is a run over `ts` and, without a fault, one over `us`
- `run_cases`: a run ends with the last token or before the first that fails
- `step_operator`, `step_function_named`: the order in which operands come off the stack
- `steps_of_step`: all that a step without a fault can do, as the rules of `Steps`
- `eq_write_or_step_of_mem_run`: what the events of a run report
- `eval_of_run`, `exists_run_of_evaluate_ok`: evaluations and the runs behind them
-/

namespace Calculator.Machine

/-! ### Composition -/

/-- The run over `ts ++ us` is a run over `ts` followed by one over `us`, unless the first ends
with a fault. -/
theorem run_append (m : Machine) (ts us : List Token) :
    m.run (ts ++ us) =
      match m.run ts with
      | (final, events, some e) => (final, events, some e)
      | (between, events, none) =>
        let (final, more, fault?) := between.run us
        (final, events ++ more, fault?) := by
  induction ts generalizing m with
  | nil => simp only [List.nil_append, run]
  | cons t ts ih =>
    -- The first token belongs to the first run, whatever `us` is.
    simp only [List.cons_append, run]
    cases m.step t with
    | error e =>
      -- A fault in the first token ends both runs.
      rfl
    | ok p =>
      obtain ⟨m₁, writes⟩ := p
      simp only [ih]
      obtain ⟨between, events, fault?⟩ := m₁.run ts
      cases fault? with
      | some e => rfl
      | none => simp only [List.append_assoc]

/-- A run over one token that does not fail. -/
theorem run_singleton_of_ok {m m' : Machine} {t : Token} {writes : List Event}
    (h : m.step t = .ok (m', writes)) : m.run [t] = (m', writes ++ m'.report t, none) := by
  simp only [run, h, List.append_nil]

/-- A run over one token that fails. -/
theorem run_singleton_of_error {m : Machine} {t : Token} {e : EvalError}
    (h : m.step t = .error e) : m.run [t] = (m, [], some e) := by
  simp only [run, h]

/-- A run over a token and more tokens that does not fail is a step followed by a run. -/
theorem exists_of_run_cons {m final : Machine} {t : Token} {ts : List Token}
    {events : List Event} (h : m.run (t :: ts) = (final, events, none)) :
    ∃ between writes rest, m.step t = .ok (between, writes) ∧
      between.run ts = (final, rest, none) ∧ events = writes ++ between.report t ++ rest := by
  simp only [run] at h
  cases hstep : m.step t with
  | error e => rw [hstep] at h; simp at h
  | ok p =>
    obtain ⟨between, writes⟩ := p
    rw [hstep] at h
    rcases hrun : between.run ts with ⟨last, rest, fault?⟩
    simp only [hrun, Prod.mk.injEq] at h
    obtain ⟨rfl, rfl, rfl⟩ := h
    exact ⟨between, writes, rest, rfl, hrun, rfl⟩

/-- A run goes on to the end, or to the first token that fails. -/
theorem run_cases (m : Machine) (ts : List Token) :
    ∃ before after final events, ts = before ++ after ∧ m.run before = (final, events, none) ∧
      ((after = [] ∧ m.run ts = (final, events, none)) ∨
        ∃ t rest e, after = t :: rest ∧ final.step t = .error e ∧
          m.run ts = (final, events, some e)) := by
  induction ts generalizing m with
  | nil => exact ⟨[], [], m, [], rfl, rfl, .inl ⟨rfl, rfl⟩⟩
  | cons t ts ih =>
    cases hstep : m.step t with
    -- The first token fails, so nothing before it is left to run.
    | error e =>
      refine ⟨[], t :: ts, m, [], rfl, rfl, .inr ⟨t, ts, e, rfl, hstep, ?_⟩⟩
      simp only [run, hstep]
    | ok next =>
      obtain ⟨between, writes⟩ := next
      obtain ⟨before, after, final, events, rfl, hbefore, hrun⟩ := ih between
      refine ⟨t :: before, after, final, writes ++ between.report t ++ events, rfl, ?_, ?_⟩
      · simp only [run, hstep, hbefore]
      · -- The rest ends in one of the two ways, and the first token does not change which.
        rcases hrun with ⟨rfl, hrun⟩ | ⟨u, rest, e, rfl, herror, hrun⟩
        · refine .inl ⟨rfl, ?_⟩
          simp only [run, hstep, hrun]
        · refine .inr ⟨u, rest, e, rfl, herror, ?_⟩
          simp only [run, hstep, hrun]

/-! ### Single steps -/

/-- An operator takes its right operand from the top and its left operand from below it. -/
theorem step_operator (env : Environment) (a b : Value) (below : List Value) (tracing : Bool)
    (op : Operator) :
    step ⟨env, b :: a :: below, tracing⟩ (.operator op) =
      (op.apply a b).map fun value => (⟨env, value :: below, tracing⟩, []) := by
  simp only [step]
  cases op.apply a b <;> rfl

/-- A call takes its arguments from the stack in the order in which they came there. -/
theorem step_function_named (env : Environment) {values : List Value} (below : List Value)
    (tracing : Bool) {name : String} {b : Builtin} (hname : Builtin.named? name = some b)
    (hlength : values.length = b.arity) :
    step ⟨env, values.reverse ++ below, tracing⟩ (.function name) =
      (b.call values).map fun result =>
        record ⟨env, result.value :: below, tracing⟩ result.write? := by
  -- The arguments are all there, so the guard on the stack passes.
  have henough : ¬ (values.reverse ++ below).length < b.arity := by
    rw [List.length_append, List.length_reverse]; omega
  -- The last argument lies on top, so the arguments are the reverse of what is taken.
  have hlength' : values.reverse.length = b.arity := by rw [List.length_reverse, hlength]
  simp only [step, hname, call, if_neg henough]
  rw [List.take_left' hlength', List.drop_left' hlength', List.reverse_reverse]
  cases b.call values <;> rfl

/-- What a token that does not fail does to a machine, and the bindings it reports. -/
inductive Steps (m : Machine) : Token → Machine → List Event → Prop
  | number (x : Float) : Steps m (.number x) (m.push (.number x)) []
  | key (name : String) : Steps m (.key name) (m.push (.key name)) []
  | reference {name : String} {value : Value} (hget : m.env.get? name = some value) :
    Steps m (.reference name) (m.push value) []
  | operator {op : Operator} {a b value : Value} {below : List Value}
    (hstack : m.stack = b :: a :: below) (happly : op.apply a b = .ok value) :
    Steps m (.operator op) { m with stack := value :: below } []
  | function {name : String} {b : Builtin} {result : CallResult}
    (hname : Builtin.named? name = some b) (harity : b.arity ≤ m.stack.length)
    (hcall : b.call (m.stack.take b.arity).reverse = .ok result) :
    Steps m (.function name)
      ({ m with stack := result.value :: m.stack.drop b.arity }.record result.write?).1
      ({ m with stack := result.value :: m.stack.drop b.arity }.record result.write?).2

/-- A step without a fault follows one of the rules. -/
theorem steps_of_step {m m' : Machine} {t : Token} {writes : List Event}
    (h : m.step t = .ok (m', writes)) : m.Steps t m' writes := by
  cases t with
  | number x =>
    obtain ⟨rfl, rfl⟩ := Prod.mk.inj (Except.ok.inj h)
    exact .number x
  | key name =>
    obtain ⟨rfl, rfl⟩ := Prod.mk.inj (Except.ok.inj h)
    exact .key name
  | reference name =>
    simp only [step] at h
    split at h
    · rename_i hget
      obtain ⟨rfl, rfl⟩ := Prod.mk.inj (Except.ok.inj h)
      exact .reference hget
    · exact nomatch h
  | operator op =>
    simp only [step] at h
    split at h
    · -- Two operands are there, so only the operator itself can still fail.
      rename_i b a below hstack
      cases happly : op.apply a b with
      | error e => rw [happly] at h; exact nomatch h
      | ok value =>
        rw [happly] at h
        obtain ⟨rfl, rfl⟩ := Prod.mk.inj (Except.ok.inj h)
        exact .operator hstack happly
    · exact nomatch h
  | function name =>
    simp only [step] at h
    split at h
    · rename_i b hname
      simp only [call] at h
      split at h
      · exact nomatch h
      · rename_i henough
        -- The arity guard has passed, so only the call itself can still fail.
        cases hcall : b.call (m.stack.take b.arity).reverse with
        | error e => rw [hcall] at h; exact nomatch h
        | ok result =>
          rw [hcall] at h
          have hrecord := Except.ok.inj h
          have hrule := Steps.function hname (Nat.le_of_not_lt henough) hcall
          rwa [hrecord] at hrule
    · exact nomatch h
  | punct mark => exact nomatch h

/-- Making a binding leaves the stack alone. -/
@[simp] theorem record_stack (m : Machine) (write? : Option (String × Value)) :
    (m.record write?).1.stack = m.stack := by
  cases write? <;> rfl

/-! ### Events -/

/-- The events of a run report bindings and steps of its tokens. -/
theorem eq_write_or_step_of_mem_run {m : Machine} {ts : List Token} {e : Event}
    (h : e ∈ (m.run ts).2.1) :
    (∃ name value, e = .write name value) ∨ ∃ t ∈ ts, ∃ depth top, e = .step t depth top := by
  induction ts generalizing m with
  | nil => exact nomatch h
  | cons t ts ih =>
    simp only [run] at h
    split at h
    · exact nomatch h
    · rename_i m' writes hstep
      rcases List.mem_append.1 h with h | h
      · rcases List.mem_append.1 h with hwrite | hreport
        · -- Only a function makes a binding, and at most one.
          left
          cases steps_of_step hstep with
          | number | key | reference | operator => exact nomatch hwrite
          | @function name b result hname harity hcall =>
            cases hresult : result.write? with
            | none => rw [hresult] at hwrite; exact nomatch hwrite
            | some write =>
              rw [hresult] at hwrite
              exact ⟨_, _, List.mem_singleton.1 hwrite⟩
        · -- A report names the token that it reports.
          right
          unfold report at hreport
          split at hreport
          · exact ⟨t, List.mem_cons_self, _, _, List.mem_singleton.1 hreport⟩
          · exact nomatch hreport
      · exact (ih h).imp_right fun ⟨u, hu, hevent⟩ => ⟨u, List.mem_cons_of_mem t hu, hevent⟩

/-! ### Evaluations -/

/-- A value is all that is left on the stack. -/
theorem stack_of_value {m : Machine} {v : Value} (h : m.value = .ok v) : m.stack = [v] := by
  unfold value at h
  split at h
  · exact nomatch h
  · -- An empty stack and one of several values are errors.
    rename_i hstack
    rw [hstack, Except.ok.inj h]
  · exact nomatch h

/-- An evaluation runs through its tokens. It would clear the stack, which is empty at the start. -/
theorem eval_of_run {rpn : List Token} {env : Environment} {tracing : Bool} {final : Machine}
    {events : List Event} {fault? : Option EvalError}
    (h : (start env tracing).run rpn = (final, events, fault?)) :
    (start env tracing).eval rpn =
      ⟨fault?.elim final.value .error, final, .evaluating rpn :: events⟩ := by
  have hstart : ({ start env tracing with stack := [] } : Machine) = start env tracing := rfl
  rw [eval, hstart, h]
  cases fault? with
  | none => rfl
  | some e => rfl

/-- An evaluation with a value has run through all tokens and left nothing but this value. -/
theorem exists_run_of_evaluate_ok {rpn : List Token} {env env' : Environment} {v : Value}
    (h : evaluate rpn env = (.ok v, env')) :
    ∃ final events, (start env false).run rpn = (final, events, none) ∧ final.stack = [v] ∧
      final.env = env' := by
  rcases hrun : (start env false).run rpn with ⟨final, events, fault?⟩
  rw [evaluate, eval_of_run hrun] at h
  obtain ⟨hresult, henv⟩ := Prod.mk.inj h
  cases fault? with
  | some e => exact nomatch hresult
  | none =>
    -- Without a fault the result is what `value` makes of the stack.
    exact ⟨final, events, rfl, stack_of_value hresult, henv⟩

end Calculator.Machine
