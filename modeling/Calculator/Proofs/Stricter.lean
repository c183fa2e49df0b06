import Calculator.Proofs.Preparation
import Calculator.Proofs.ScanRun

/-!
# Stricter settings

Strictness rejects texts and never gives them another meaning. The two switches act in different
stages and in different ways: a strict scanner ends a name before a sigil inside it, which a lenient
one reads on, and strict parentheses make an error of what otherwise sends out the whole stack.
What both have in common is the relation `Narrows` between the results of a strict and a lenient
stage. It is kept by everything that is done with results, so it passes from single lexemes and
tokens to whole texts.

## Key results

- `Narrows.bind`, `Narrows.mapError`: stages one after the other
- `scanFrom_narrows`, `Postfix.step_narrows`, `Postfix.ofInfix_narrows`: the two stages
- `toPostfix_narrows`: the postfix order under a stricter setting
- `calculate_of_le`: a stricter setting leads to the same calculation, or to one of two errors
-/

namespace Calculator

/-- `Narrows Added stricter lenient`: the two results are the same, or the stricter one is an error
of the kind `Added`. -/
inductive Narrows {ε α : Type} (Added : ε → Prop) : Except ε α → Except ε α → Prop
  | same (result : Except ε α) : Narrows Added result result
  | added {e : ε} (he : Added e) (lenient : Except ε α) : Narrows Added (.error e) lenient

namespace Narrows

variable {ε δ α β : Type} {Added : ε → Prop} {stricter lenient : Except ε α}

/-- What a strict stage accepts, a lenient one accepts with the same outcome. -/
theorem eq_ok {a : α} (h : Narrows Added (.ok a) lenient) : lenient = .ok a := by
  cases h with
  | same => rfl

/-- What only a lenient stage accepts, a strict one rejects with an error of the kind. -/
theorem added_of_ok {a : α} {e : ε} (h : Narrows Added (.error e) (.ok a)) : Added e := by
  cases h with
  | added he => exact he

theorem map (h : Narrows Added stricter lenient) (f : α → β) :
    Narrows Added (f <$> stricter) (f <$> lenient) := by
  cases h with
  | same => exact .same _
  | added he => exact .added he _

/-- Stages one after the other, if the second ones narrow on every outcome of the first. -/
theorem bind {f g : α → Except ε β} (h : Narrows Added stricter lenient)
    (hnext : ∀ a, Narrows Added (f a) (g a)) : Narrows Added (stricter >>= f) (lenient >>= g) := by
  cases h with
  | same =>
    cases stricter with
    | error e => exact .same _
    | ok a => exact hnext a
  | added he => exact .added he _

/-- Errors of single stages as errors of the whole. -/
theorem mapError {Added' : δ → Prop} {f : ε → δ} (h : Narrows Added stricter lenient)
    (hf : ∀ e, Added e → Added' (f e)) :
    Narrows Added' (stricter.mapError f) (lenient.mapError f) := by
  cases h with
  | same => exact .same _
  | added he => exact .added (hf _ he) _

theorem imp {Added' : ε → Prop} (h : Narrows Added stricter lenient)
    (himp : ∀ e, Added e → Added' e) : Narrows Added' stricter lenient := by
  cases h with
  | same => exact .same _
  | added he => exact .added (himp _ he) _

/-- A stage with a switch, under two settings that are in order. An error is added only if the
switch is on in one of them and off in the other. -/
theorem of_switch (stage : Bool → Except ε α) (h : Narrows Added (stage true) (stage false))
    {weak strong : Bool} (hle : weak = true → strong = true) :
    Narrows (fun e => weak = false ∧ strong = true ∧ Added e) (stage strong) (stage weak) := by
  -- The settings agree, or they are in the one order that is left.
  cases weak with
  | true =>
    rw [hle rfl]
    exact .same _
  | false =>
    cases strong with
    | false => exact .same _
    | true => exact h.imp fun e he => ⟨rfl, rfl, he⟩

end Narrows

/-! ### Scanning -/

namespace Token

/-- Whether a scan error is about a sigil. -/
def RejectsSigil : ScanError → Prop
  | .invalidCharacter c _ => isSigil c = true

/-- With strict identifiers the rest of a text has the same tokens, or a sigil is rejected. -/
theorem scanFrom_narrows (position : Nat) (cs : List Char) :
    Narrows RejectsSigil (scanFrom true position cs) (scanFrom false position cs) := by
  induction cs using lexeme_induct generalizing position with
  | nil =>
    rw [scanFrom_nil, scanFrom_nil]
    exact .same _
  | space cs ih =>
    rw [scanFrom_space, scanFrom_space]
    exact ih (position + 1)
  | number c run rest hc hrun hrest ih =>
    rw [scanFrom_number true position hc hrun hrest, scanFrom_number false position hc hrun hrest]
    exact (ih _).map _
  | name c run rest hc hrun hrest ih =>
    by_cases hletters : ∀ d ∈ run, d.isUpper = true
    · rw [scanFrom_name true position hc hrun hrest fun _ => hletters,
        scanFrom_name false position hc hrun hrest nofun]
      exact (ih _).map _
    · -- The lenient scanner reads on behind the sigil, and it does not matter what.
      obtain ⟨letters, sigil, more, rfl, hupper, hsigil⟩ :=
        exists_sigil_of_not_isUpper hrun hletters
      have hadded : RejectsSigil (.invalidCharacter sigil (position + 1 + letters.length)) := hsigil
      rw [List.append_assoc, List.cons_append, scanFrom_innerSigil position hc hupper hsigil]
      exact .added hadded _
  | symbol c t cs hsymbol ih =>
    rw [scanFrom_symbol true position cs hsymbol, scanFrom_symbol false position cs hsymbol]
    exact (ih _).map _
  | other c cs hspace hdigit hname hsymbol =>
    rw [scanFrom_other true position cs hspace hdigit hname hsymbol,
      scanFrom_other false position cs hspace hdigit hname hsymbol]
    exact .same _

end Token

/-! ### Conversion -/

namespace Postfix

/-- Whether a parse error is about a parenthesis or comma without a partner. -/
def RejectsParenthesis : ParseError → Prop
  | .unbalancedParenthesis _ => True
  | .unparsedToken _ _ => False

/-- With strict parentheses a token does the same to a stack, or it is rejected because nothing is
open for it. -/
theorem step_narrows (index : Nat) (stack : List Pending) (token : Token) :
    Narrows RejectsParenthesis (step true index stack token) (step false index stack token) := by
  cases token with
  | punct mark =>
    cases mark with
    | leftParen => exact .same _
    | _ =>
      -- A comma and a closing parenthesis ask whether something is open.
      simp only [step, Token.isUnnamed, Bool.false_eq_true, ↓reduceIte]
      cases stack.dropWhile (!Pending.isParen ·) with
      | nil => exact .added trivial _
      | cons paren below => exact .same _
  | _ => exact .same _

/-- With strict parentheses tokens do the same to a stack, or one of them is rejected. -/
theorem run_narrows (index : Nat) (stack : List Pending) (ts : List Token) :
    Narrows RejectsParenthesis (run true index stack ts) (run false index stack ts) := by
  induction ts generalizing index stack with
  | nil => exact .same _
  | cons t ts ih =>
    -- Where both steps succeed, they lead to the same stack, and the runs go on from there.
    refine (step_narrows index stack t).bind fun (output, between) => ?_
    exact (ih (index + 1) between).bind fun (more, final) => .same _

/-- With strict parentheses the end of a text is the same, or a parenthesis that waits is
rejected. -/
theorem finish_narrows (stack : List Pending) :
    Narrows RejectsParenthesis (finish true stack) (finish false stack) := by
  simp only [finish]
  split
  · exact .added trivial _
  · exact .same _

/-- With strict parentheses a text has the same postfix order, or a parenthesis is rejected. -/
theorem ofInfix_narrows (identifiers : Bool) (ts : List Token) :
    Narrows RejectsParenthesis (ofInfix ⟨identifiers, true⟩ ts)
      (ofInfix ⟨identifiers, false⟩ ts) := by
  refine (run_narrows 0 [] ts).bind fun (output, stack) => ?_
  exact (finish_narrows stack).bind fun last => .same _

end Postfix

/-! ### Texts -/

section

variable {weak strong : Strictness}

/-- The errors that come with a stricter setting. Each of them takes its own switch. -/
inductive Added (weak strong : Strictness) : Failure → Prop
  | sigil {c : Char} (hweak : weak.identifiers = false) (hstrong : strong.identifiers = true)
    (hc : isSigil c = true) (position : Nat) :
    Added weak strong (.scan (.invalidCharacter c position))
  | parenthesis (hweak : weak.parentheses = false) (hstrong : strong.parentheses = true)
    (index : Nat) : Added weak strong (.parse (.unbalancedParenthesis index))

/-- A text has the same tokens under a stricter setting, or a sigil is rejected. -/
theorem scan_narrows (h : weak ≤ strong) (text : String) :
    Narrows (fun e => weak.identifiers = false ∧ strong.identifiers = true ∧ Token.RejectsSigil e)
      (Token.scan strong text) (Token.scan weak text) :=
  .of_switch (Token.scanFrom · 0 text.toList) (Token.scanFrom_narrows 0 text.toList) h.1

/-- Tokens have the same postfix order under a stricter setting, or a parenthesis is rejected. -/
theorem ofInfix_narrows_of_le (h : weak ≤ strong) (ts : List Token) :
    Narrows (fun e => weak.parentheses = false ∧ strong.parentheses = true ∧
        Postfix.RejectsParenthesis e)
      (Postfix.ofInfix strong ts) (Postfix.ofInfix weak ts) :=
  -- The conversion does not look at the other switch.
  .of_switch (fun strict => Postfix.ofInfix ⟨false, strict⟩ ts) (Postfix.ofInfix_narrows false ts)
    h.2

/-- Under a stricter setting a text has the same postfix order, or it is rejected for a sigil or a
parenthesis. -/
theorem toPostfix_narrows (h : weak ≤ strong) (text : String) :
    Narrows (Added weak strong) (toPostfix strong text) (toPostfix weak text) := by
  rw [toPostfix_eq_bind, toPostfix_eq_bind]
  refine ((scan_narrows h text).mapError ?_).bind fun ts =>
    (ofInfix_narrows_of_le h ts).mapError ?_
  · rintro ⟨c, position⟩ ⟨hweak, hstrong, hc⟩
    exact .sigil hweak hstrong hc position
  · intro e he
    cases e with
    | unbalancedParenthesis index => exact .parenthesis he.1 he.2.1 index
    | unparsedToken token index => exact he.2.2.elim

/-- What is prepared under a stricter setting is prepared in the same way under a weaker one, and
the same is reported of it. -/
theorem prepare_eq_of_le (h : weak ≤ strong) {text : String} {rpn : List Token}
    (hrpn : toPostfix strong text = .ok rpn) : prepare weak text = prepare strong text := by
  obtain ⟨tokens, hscan, hconvert⟩ := toPostfix_eq_ok_iff.1 hrpn
  have hscan' : Token.scan weak text = .ok tokens := (hscan ▸ scan_narrows h text).eq_ok
  have hconvert' : Postfix.ofInfix weak tokens = .ok rpn :=
    (hconvert ▸ ofInfix_narrows_of_le h tokens).eq_ok
  simp only [prepare, hscan, hscan', hconvert, hconvert']

/-- A text that has a postfix order under a stricter setting has the same one under a weaker
setting, and the whole calculation is the same: its value or evaluation error, the environment
after it and its events. A text that has a postfix order under the weaker setting only is rejected
by the stricter one for a sigil, `$` or `#`, or for a parenthesis or comma without a partner, by the
switch that is on in this setting only; then the environment stays as it is. -/
theorem calculate_of_le (h : weak ≤ strong) (text : String) :
    (∀ rpn, toPostfix strong text = .ok rpn →
      toPostfix weak text = .ok rpn ∧
      ∀ tracing env, calculate weak tracing text env = calculate strong tracing text env ∧
        ∃ result : Except EvalError Value,
          (calculate strong tracing text env).result = result.mapError .eval) ∧
    ∀ rpn e, toPostfix weak text = .ok rpn → toPostfix strong text = .error e →
      ((weak.identifiers = false ∧ strong.identifiers = true ∧
          ∃ c position, e = .scan (.invalidCharacter c position) ∧ (c = '$' ∨ c = '#')) ∨
        (weak.parentheses = false ∧ strong.parentheses = true ∧
          ∃ index, e = .parse (.unbalancedParenthesis index))) ∧
      ∀ tracing env, (calculate strong tracing text env).result = .error e ∧
        (calculate strong tracing text env).env = env := by
  have hnarrows := toPostfix_narrows h text
  constructor
  · intro rpn hrpn
    rw [hrpn] at hnarrows
    refine ⟨hnarrows.eq_ok, fun tracing env => ⟨?_, ?_⟩⟩
    · simp only [calculate, prepare_eq_of_le h hrpn]
    · exact ⟨_, congrArg Calculation.result (calculate_of_ok hrpn tracing env)⟩
  · intro rpn e hweak hstrong
    rw [hweak, hstrong] at hnarrows
    constructor
    · -- Only the errors that come with the setting can make the difference.
      cases hnarrows.added_of_ok with
      | sigil hoff hon hc position =>
        exact .inl ⟨hoff, hon, _, position, rfl, isSigil_iff.1 hc⟩
      | parenthesis hoff hon index => exact .inr ⟨hoff, hon, index, rfl⟩
    · intro tracing env
      rw [calculate_of_error hstrong tracing env]
      exact ⟨rfl, rfl⟩

open Token in
/-- `(1 + $#A` refers to the name `#A` unless identifiers are strict. Its parenthesis is not the
reason why it is rejected. -/
theorem calculate_of_lenient_le_strict :
    calculate .lenient true "SET(#A, 2) < $PI" .standard =
      calculate .strict true "SET(#A, 2) < $PI" .standard ∧
    toPostfix .lenient "(1 + $#A" = .ok [number 1, reference "#A", operator .add] ∧
    toPostfix .strict "(1 + $#A" = .error (.scan (.invalidCharacter '#' 6)) ∧
    (calculate .strict true "(1 + $#A" .standard).env = .standard := by
  have hle : Strictness.lenient ≤ .strict := ⟨fun _ => rfl, fun _ => rfl⟩
  have haccepted : toPostfix .strict "SET(#A, 2) < $PI" =
      .ok [key "A", number 2, function "SET", reference "PI", operator .less] := by decide +kernel
  have hweak : toPostfix .lenient "(1 + $#A" = .ok [number 1, reference "#A", operator .add] := by
    decide +kernel
  have hstrong : toPostfix .strict "(1 + $#A" = .error (.scan (.invalidCharacter '#' 6)) := by
    decide +kernel
  have hsame := (calculate_of_le hle "SET(#A, 2) < $PI").1 _ haccepted
  have hrejected := (calculate_of_le hle "(1 + $#A").2 _ _ hweak hstrong
  exact ⟨(hsame.2 true .standard).1, hweak, hstrong, (hrejected.2 true .standard).2⟩

end

end Calculator
