import Calculator.Calculation
import Calculator.Proofs.PostfixRun

/-!
# Texts before their evaluation

A calculation first brings its text into postfix order. What comes of this depends on the text and
the strictness alone, and decides what the calculation is: the error of the stage that failed, or
the evaluation of the postfix order.

## Key results

- `toPostfix_eq_bind`: the two stages before the evaluation
- `mem_of_toPostfix`: the postfix order holds tokens of the text only
- `calculate_of_error`, `calculate_of_ok`: the calculation of a text without and with a postfix
  order
-/

namespace Calculator

variable {strictness : Strictness} {text : String}

/-- A text is scanned, and its tokens are put into postfix order. -/
theorem toPostfix_eq_bind (strictness : Strictness) (text : String) :
    toPostfix strictness text =
      ((Token.scan strictness text).mapError .scan >>= fun tokens =>
        (Postfix.ofInfix strictness tokens).mapError .parse) := by
  unfold toPostfix prepare
  cases hscan : Token.scan strictness text with
  | error e => rfl
  | ok tokens =>
    -- The events of the preparation do not bear on its result.
    show _ = (Postfix.ofInfix strictness tokens).mapError Failure.parse
    dsimp only
    cases Postfix.ofInfix strictness tokens <;> rfl

/-- The postfix order of a text is that of its tokens. -/
theorem toPostfix_eq_ok_iff {rpn : List Token} :
    toPostfix strictness text = .ok rpn ↔
      ∃ tokens, Token.scan strictness text = .ok tokens ∧
        Postfix.ofInfix strictness tokens = .ok rpn := by
  unfold toPostfix prepare
  cases hscan : Token.scan strictness text with
  | error e => simp
  | ok tokens => cases hrpn : Postfix.ofInfix strictness tokens <;> simp [hrpn]

/-- A text has no postfix order if it cannot be scanned, or if its tokens have none. -/
theorem toPostfix_eq_error_iff {e : Failure} :
    toPostfix strictness text = .error e ↔
      (∃ cause, Token.scan strictness text = .error cause ∧ e = .scan cause) ∨
        ∃ tokens cause, Token.scan strictness text = .ok tokens ∧
          Postfix.ofInfix strictness tokens = .error cause ∧ e = .parse cause := by
  unfold toPostfix prepare
  cases hscan : Token.scan strictness text with
  | error cause => simp [eq_comm]
  | ok tokens => cases hrpn : Postfix.ofInfix strictness tokens <;> simp [hrpn, eq_comm]

/-- The postfix order of a text has no tokens that are not in the text. -/
theorem mem_of_toPostfix {tokens rpn : List Token}
    (hscan : Token.scan strictness text = .ok tokens)
    (hrpn : toPostfix strictness text = .ok rpn) {t : Token} (ht : t ∈ rpn) : t ∈ tokens := by
  obtain ⟨tokens', hscan', hrpn⟩ := toPostfix_eq_ok_iff.1 hrpn
  -- A text has one scan, so the tokens are those that were put into postfix order.
  obtain rfl : tokens = tokens' := Except.ok.inj (hscan.symm.trans hscan')
  exact (List.mem_filter.1 ((Postfix.perm_of_ofInfix hrpn).mem_iff.1 ht)).1

/-- Without a postfix order there is nothing to evaluate. -/
theorem calculate_of_error {e : Failure} (h : toPostfix strictness text = .error e)
    (tracing : Bool) (env : Environment) :
    calculate strictness tracing text env = ⟨.error e, env, (prepare strictness text).2⟩ := by
  unfold toPostfix at h
  unfold calculate
  split
  · rename_i hprepare
    rw [hprepare] at h ⊢
    rw [Except.error.inj h]
  · -- A preparation that succeeds has a postfix order.
    rename_i hprepare
    rw [hprepare] at h
    exact nomatch h

/-- The postfix order is evaluated. -/
theorem calculate_of_ok {rpn : List Token} (h : toPostfix strictness text = .ok rpn)
    (tracing : Bool) (env : Environment) :
    calculate strictness tracing text env =
      ⟨((Machine.start env tracing).eval rpn).result.mapError .eval,
        ((Machine.start env tracing).eval rpn).machine.env,
        (prepare strictness text).2 ++ ((Machine.start env tracing).eval rpn).events⟩ := by
  unfold toPostfix at h
  unfold calculate
  split
  · -- A preparation that fails has no postfix order.
    rename_i hprepare
    rw [hprepare] at h
    exact nomatch h
  · rename_i hprepare
    rw [hprepare] at h ⊢
    rw [Except.ok.inj h]

end Calculator
