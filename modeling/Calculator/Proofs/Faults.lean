import Calculator.Proofs.MachineRun

/-!
# Faults of single tokens

A step of the stack machine that fails does so for one of a few reasons, and each of them has its
own error. `Machine.Faults` lists them, as `Machine.Steps` lists what a step without a fault does.

## Key results

- `Operator.exists_typeMismatch_of_apply`, `Builtin.exists_typeMismatch_of_call`: with enough
  operands only their kinds can be wrong
- `Machine.faults_of_step`: all reasons for which a token fails, as the rules of `Faults`
-/

/-- A failure of two stages is one of the first, or one of the second after the first. -/
theorem Except.error_cases_of_bind {ε α β : Type} {x : Except ε α} {f : α → Except ε β} {e : ε}
    (h : x >>= f = .error e) : x = .error e ∨ ∃ a, x = .ok a ∧ f a = .error e := by
  cases x with
  | error e' => exact .inl (congrArg Except.error (Except.error.inj h))
  | ok a => exact .inr ⟨a, rfl, h⟩

namespace Calculator

/-! ### Operands of the wrong kind -/

/-- Where a number is wanted, only the kind of a value is an error. -/
theorem Value.eq_typeMismatch_of_asNumber {v : Value} {e : EvalError} (h : v.asNumber = .error e) :
    e = .typeMismatch .number v.kind := by
  cases v with
  | key name => exact (Except.error.inj h).symm
  | number x => exact nomatch h
  | bool b => exact nomatch h

/-- An operator fails only if an operand is of the wrong kind. -/
theorem Operator.exists_typeMismatch_of_apply {op : Operator} {left right : Value} {e : EvalError}
    (h : op.apply left right = .error e) : ∃ got, e = .typeMismatch .number got := by
  unfold apply at h
  split at h
  · -- Equality never fails.
    exact nomatch h
  · -- The left operand is looked at first, and only then the right one.
    rcases Except.error_cases_of_bind h with hleft | ⟨x, -, h⟩
    · exact ⟨_, Value.eq_typeMismatch_of_asNumber hleft⟩
    · rcases Except.error_cases_of_bind h with hright | ⟨y, -, h⟩
      · exact ⟨_, Value.eq_typeMismatch_of_asNumber hright⟩
      · exact nomatch h

/-- A function with as many arguments as it takes fails only if one is of the wrong kind. -/
theorem Builtin.exists_typeMismatch_of_call {b : Builtin} {values : List Value} {e : EvalError}
    (hlength : values.length = b.arity) (h : b.call values = .error e) :
    ∃ expected got, e = .typeMismatch expected got := by
  -- With the right number of arguments there is one case for each function.
  match b, values, hlength with
  | .max, [a, c], _ =>
    rcases Except.error_cases_of_bind h with ha | ⟨x, -, h⟩
    · exact ⟨_, _, Value.eq_typeMismatch_of_asNumber ha⟩
    · rcases Except.error_cases_of_bind h with hc | ⟨y, -, h⟩
      · exact ⟨_, _, Value.eq_typeMismatch_of_asNumber hc⟩
      · exact nomatch h
  | .sqrt, [a], _ =>
    rcases Except.error_cases_of_bind h with ha | ⟨x, -, h⟩
    · exact ⟨_, _, Value.eq_typeMismatch_of_asNumber ha⟩
    · exact nomatch h
  | .choose, [p, a, c], _ => exact nomatch h
  | .assign, [k, v], _ =>
    -- The first argument has to be a key, and the second one must not be any.
    cases k with
    | key name =>
      cases v with
      | key other => exact ⟨_, _, (Except.error.inj h).symm⟩
      | _ => exact nomatch h
    | _ => exact ⟨_, _, (Except.error.inj h).symm⟩

/-! ### Steps -/

namespace Machine

/-- Why a token fails, and the error of it. -/
inductive Faults (m : Machine) : Token → EvalError → Prop
  | reference {name : String} (hget : m.env.get? name = none) :
    Faults m (.reference name) (.undefinedVariable name)
  | fewOperands {op : Operator} (hstack : m.stack.length < 2) :
    Faults m (.operator op) (.stackUnderflow (String.singleton op.symbol))
  | operands {op : Operator} {a b : Value} {below : List Value} {got : Value.Kind}
    (hstack : m.stack = b :: a :: below)
    (happly : op.apply a b = .error (.typeMismatch .number got)) :
    Faults m (.operator op) (.typeMismatch .number got)
  | unknown {name : String} (hname : Builtin.named? name = none) :
    Faults m (.function name) (.undefinedFunction name)
  | fewArguments {name : String} {b : Builtin} (hname : Builtin.named? name = some b)
    (hstack : m.stack.length < b.arity) : Faults m (.function name) (.stackUnderflow name)
  | arguments {name : String} {b : Builtin} {expected : Expectation} {got : Value.Kind}
    (hname : Builtin.named? name = some b) (harity : b.arity ≤ m.stack.length)
    (hcall : b.call (m.stack.take b.arity).reverse = .error (.typeMismatch expected got)) :
    Faults m (.function name) (.typeMismatch expected got)
  | punct (mark : Punct) : Faults m (.punct mark) (.undefinedOperator mark)

/-- A step that fails follows one of the rules. -/
theorem faults_of_step {m : Machine} {t : Token} {e : EvalError} (h : m.step t = .error e) :
    m.Faults t e := by
  cases t with
  | number x => cases h
  | key name => cases h
  | reference name =>
    simp only [step] at h
    split at h
    · cases h
    · rename_i hget
      obtain rfl := Except.error.inj h
      exact .reference hget
  | operator op =>
    simp only [step] at h
    split at h
    · -- There are two operands, so the operator itself has failed.
      rename_i right left below hstack
      rcases Except.error_cases_of_bind h with happly | ⟨value, -, h⟩
      · obtain ⟨got, rfl⟩ := Operator.exists_typeMismatch_of_apply happly
        exact .operands hstack happly
      · cases h
    · rename_i hfew
      obtain rfl := Except.error.inj h
      refine .fewOperands ?_
      -- A stack of two or more values would match the other branch.
      rcases hstack : m.stack with _ | ⟨b, _ | ⟨a, below⟩⟩
      · simp
      · simp
      · exact absurd hstack (hfew b a below)
  | function name =>
    simp only [step] at h
    split at h
    · rename_i b hname
      simp only [call] at h
      split at h
      · rename_i hfew
        obtain rfl := Except.error.inj h
        rw [Builtin.named?_eq_some_iff.1 hname]
        exact .fewArguments hname hfew
      · -- With enough operands it is the call that has failed.
        rename_i henough
        have harity : b.arity ≤ m.stack.length := Nat.le_of_not_lt henough
        rcases Except.error_cases_of_bind h with hcall | ⟨result, -, h⟩
        · have hlength : (m.stack.take b.arity).reverse.length = b.arity := by
            rw [List.length_reverse, List.length_take_of_le harity]
          obtain ⟨expected, got, rfl⟩ := Builtin.exists_typeMismatch_of_call hlength hcall
          exact .arguments hname harity hcall
        · cases h
    · rename_i hname
      obtain rfl := Except.error.inj h
      exact .unknown hname
  | punct mark =>
    obtain rfl := Except.error.inj h
    exact .punct mark

end Machine

end Calculator
