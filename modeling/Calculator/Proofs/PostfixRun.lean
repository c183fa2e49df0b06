import Calculator.Postfix
import Calculator.Proofs.Span

/-!
# Steps and runs of the conversion to postfix order

What a single token does to a stack whose upper part is known, and how the runs over two
neighbouring sequences of tokens compose. The proofs about `Postfix.ofInfix` use these lemmas
and do not unfold `step` themselves.

## Key results

- `exists_topmost_paren`: a stack split at the parenthesis that a comma or `)` meets
- `step_operand`, `step_function`, `step_operator`, `step_comma`, `step_rightParen`: one token
- `steps_of_step`: all that an accepted token can do, as the rules of `Steps`
- `run_append`, `run_append_of_ok`: the run over `ts ++ us` is a run over `ts` and one over `us`
- `run_eq_error_iff`: a run fails at its first token that is not accepted
- `perm_of_ofInfix`: the output is a permutation of the tokens that are no punctuation
-/

namespace Calculator.Postfix

/-! ### Output -/

@[simp] theorem emit_nil : emit [] = [] := rfl

/-- Entries that leave one group after the other. -/
@[simp] theorem emit_append (ps qs : List Pending) : emit (ps ++ qs) = emit ps ++ emit qs :=
  List.filterMap_append

@[simp] theorem emit_operator (op : Operator) (ps : List Pending) :
    emit (.operator op :: ps) = .operator op :: emit ps := rfl

@[simp] theorem emit_function (name : String) (ps : List Pending) :
    emit (.function name :: ps) = .function name :: emit ps := rfl

@[simp] theorem emit_paren (index : Nat) (ps : List Pending) :
    emit (.paren index :: ps) = emit ps := rfl

/-! ### Single tokens -/

/-- An operand with a name goes to the output at once. -/
theorem step_operand (strict : Bool) (index : Nat) (stack : List Pending) {token : Token}
    (hoperand : token.isOperand = true) (hname : token.isUnnamed = false) :
    step strict index stack token = .ok ([token], stack) := by
  cases token with
  | number x => rfl
  | reference name => simp only [step, hname, Bool.false_eq_true, ↓reduceIte]
  | key name => simp only [step, hname, Bool.false_eq_true, ↓reduceIte]
  | operator op => exact nomatch hoperand
  | punct mark => exact nomatch hoperand
  | function name => exact nomatch hoperand

/-- A function name sends out the function names above the first other entry. -/
theorem step_function (strict : Bool) (index : Nat) {above below : List Pending} {name : String}
    (hname : name ≠ "") (habove : ∀ q ∈ above, q.isFunction = true)
    (htop : ∀ top ∈ below.head?, top.isFunction = false) :
    step strict index (above ++ below) (.function name) =
      .ok (emit above, .function name :: below) := by
  -- The check for a missing name comes before everything else.
  have hunnamed : (Token.function name).isUnnamed = false := by
    simpa [Token.isUnnamed] using hname
  simp only [step, hunnamed, Bool.false_eq_true, ↓reduceIte,
    List.takeWhile_append_of_head? habove htop, List.dropWhile_append_of_head? habove htop]

/-- An operator sends out everything above the first entry that does not yield to it. -/
theorem step_operator (strict : Bool) (index : Nat) {op : Operator} {above below : List Pending}
    (habove : ∀ q ∈ above, q.yieldsTo op = true)
    (htop : ∀ top ∈ below.head?, top.yieldsTo op = false) :
    step strict index (above ++ below) (.operator op) =
      .ok (emit above, .operator op :: below) := by
  simp only [step, Token.isUnnamed, Bool.false_eq_true, ↓reduceIte,
    List.takeWhile_append_of_head? habove htop, List.dropWhile_append_of_head? habove htop]

/-- An opening parenthesis comes to wait above anything. -/
theorem step_leftParen (strict : Bool) (index : Nat) (stack : List Pending) :
    step strict index stack (.punct .leftParen) = .ok ([], .paren index :: stack) := rfl

/-- A stack holds no parenthesis, or splits at the topmost one. -/
theorem exists_topmost_paren (stack : List Pending) :
    (∀ q ∈ stack, q.isParen = false) ∨
      ∃ above opened below, stack = above ++ .paren opened :: below ∧
        ∀ q ∈ above, q.isParen = false := by
  induction stack with
  | nil => exact .inl nofun
  | cons p stack ih =>
    -- The top is the topmost parenthesis itself, or belongs to the part above it.
    by_cases hp : p.isParen = true
    · cases p with
      | paren opened => exact .inr ⟨[], opened, stack, rfl, nofun⟩
      | operator op => exact nomatch hp
      | function name => exact nomatch hp
    · have hp' : p.isParen = false := Bool.eq_false_iff.2 hp
      rcases ih with hstack | ⟨above, opened, below, rfl, habove⟩
      · exact .inl (List.forall_mem_cons.2 ⟨hp', hstack⟩)
      · exact .inr ⟨p :: above, opened, below, rfl, List.forall_mem_cons.2 ⟨hp', habove⟩⟩

section

variable {above : List Pending} (habove : ∀ q ∈ above, q.isParen = false)
include habove

/-- What a comma or `)` sends out is the part above the nearest parenthesis. -/
theorem takeWhile_paren (opened : Nat) (below : List Pending) :
    (above ++ .paren opened :: below).takeWhile (!Pending.isParen ·) = above :=
  List.takeWhile_append_of_head? (fun q hq => by simp [habove q hq]) (by simp [Pending.isParen])

/-- What a comma or `)` finds at the top afterwards is the nearest parenthesis. -/
theorem dropWhile_paren (opened : Nat) (below : List Pending) :
    (above ++ .paren opened :: below).dropWhile (!Pending.isParen ·) = .paren opened :: below :=
  List.dropWhile_append_of_head? (fun q hq => by simp [habove q hq]) (by simp [Pending.isParen])

end

/-- A comma sends out everything above the nearest parenthesis. -/
theorem step_comma (strict : Bool) (index opened : Nat) {above : List Pending}
    (below : List Pending) (habove : ∀ q ∈ above, q.isParen = false) :
    step strict index (above ++ .paren opened :: below) (.punct .comma) =
      .ok (emit above, .paren opened :: below) := by
  -- The split is at `paren opened`, which is neither sent out nor taken away.
  simp only [step, Token.isUnnamed, Bool.false_eq_true, ↓reduceIte,
    takeWhile_paren habove, dropWhile_paren habove, reduceCtorEq]

/-- A closing parenthesis sends out everything above the nearest parenthesis and takes it away. -/
theorem step_rightParen (strict : Bool) (index opened : Nat) {above : List Pending}
    (below : List Pending) (habove : ∀ q ∈ above, q.isParen = false) :
    step strict index (above ++ .paren opened :: below) (.punct .rightParen) =
      .ok (emit above, below) := by
  simp only [step, Token.isUnnamed, Bool.false_eq_true, ↓reduceIte,
    takeWhile_paren habove, dropWhile_paren habove]

/-- Outside parentheses a comma or closing parenthesis is an error, or sends out everything. -/
theorem step_stray (strict : Bool) (index : Nat) {stack : List Pending} {mark : Punct}
    (hmark : mark ≠ .leftParen) (hstack : ∀ q ∈ stack, q.isParen = false) :
    step strict index stack (.punct mark) =
      if strict then .error (.unbalancedParenthesis index) else .ok (emit stack, []) := by
  have hstack' : ∀ q ∈ stack, (!q.isParen) = true := fun q hq => by simp [hstack q hq]
  -- Nothing is left below what a closing parenthesis would send out.
  have hdrop := @List.dropWhile_append_of_head? _ _ stack [] hstack' (by simp)
  rw [List.append_nil] at hdrop
  cases mark with
  | leftParen => exact absurd rfl hmark
  | rightParen => simp only [step, Token.isUnnamed, Bool.false_eq_true, ↓reduceIte, hdrop]
  | comma => simp only [step, Token.isUnnamed, Bool.false_eq_true, ↓reduceIte, hdrop]

/-- A name that is missing is an error. -/
theorem step_unnamed (strict : Bool) (index : Nat) (stack : List Pending) {token : Token}
    (hname : token.isUnnamed = true) :
    step strict index stack token = .error (.unparsedToken token index) := by
  simp only [step, hname, ↓reduceIte]

/-- What an accepted token does: its output, and the stack after it. -/
inductive Steps (strict : Bool) (index : Nat) :
    List Pending → Token → List Token → List Pending → Prop
  | operand {stack : List Pending} {token : Token} (hoperand : token.isOperand = true)
    (hname : token.isUnnamed = false) : Steps strict index stack token [token] stack
  | function {above below : List Pending} {name : String} (hname : name ≠ "")
    (habove : ∀ q ∈ above, q.isFunction = true)
    (htop : ∀ top ∈ below.head?, top.isFunction = false) :
    Steps strict index (above ++ below) (.function name) (emit above) (.function name :: below)
  | operator {above below : List Pending} {op : Operator}
    (habove : ∀ q ∈ above, q.yieldsTo op = true)
    (htop : ∀ top ∈ below.head?, top.yieldsTo op = false) :
    Steps strict index (above ++ below) (.operator op) (emit above) (.operator op :: below)
  | leftParen (stack : List Pending) :
    Steps strict index stack (.punct .leftParen) [] (.paren index :: stack)
  | comma {above below : List Pending} {opened : Nat} (habove : ∀ q ∈ above, q.isParen = false) :
    Steps strict index (above ++ .paren opened :: below) (.punct .comma) (emit above)
      (.paren opened :: below)
  | rightParen {above below : List Pending} {opened : Nat}
    (habove : ∀ q ∈ above, q.isParen = false) :
    Steps strict index (above ++ .paren opened :: below) (.punct .rightParen) (emit above) below
  /-- Nothing is open for a comma or a closing parenthesis. -/
  | stray {stack : List Pending} {mark : Punct} (hmark : mark ≠ .leftParen)
    (hstrict : strict = false) (hstack : ∀ q ∈ stack, q.isParen = false) :
    Steps strict index stack (.punct mark) (emit stack) []

/-- A comma or closing parenthesis that is accepted follows one of the rules. -/
private theorem steps_of_step_closer {strict : Bool} {index : Nat} {stack stack' : List Pending}
    {mark : Punct} {output : List Token} (hmark : mark ≠ .leftParen)
    (h : step strict index stack (.punct mark) = .ok (output, stack')) :
    Steps strict index stack (.punct mark) output stack' := by
  rcases exists_topmost_paren stack with hstack | ⟨above, opened, below, rfl, habove⟩
  · -- No parenthesis waits, and only lenient parentheses let this pass.
    rw [step_stray strict index hmark hstack] at h
    cases strict with
    | false =>
      obtain ⟨rfl, rfl⟩ := Prod.mk.inj (Except.ok.inj h)
      exact .stray hmark rfl hstack
    | true => exact nomatch h
  · cases mark with
    | leftParen => exact absurd rfl hmark
    | comma =>
      rw [step_comma strict index opened below habove] at h
      obtain ⟨rfl, rfl⟩ := Prod.mk.inj (Except.ok.inj h)
      exact .comma habove
    | rightParen =>
      rw [step_rightParen strict index opened below habove] at h
      obtain ⟨rfl, rfl⟩ := Prod.mk.inj (Except.ok.inj h)
      exact .rightParen habove

/-- An accepted token follows one of the rules. -/
theorem steps_of_step {strict : Bool} {index : Nat} {stack stack' : List Pending} {token : Token}
    {output : List Token} (h : step strict index stack token = .ok (output, stack')) :
    Steps strict index stack token output stack' := by
  -- A missing name would have been an error, whatever the kind of the token.
  have hname : token.isUnnamed = false := by
    by_cases hname : token.isUnnamed = true
    · rw [step_unnamed strict index stack hname] at h
      exact nomatch h
    · exact Bool.eq_false_iff.2 hname
  -- Numbers, references and keys share the first rule.
  have hoperand : token.isOperand = true → Steps strict index stack token output stack' := by
    intro hoperand
    rw [step_operand strict index stack hoperand hname] at h
    obtain ⟨rfl, rfl⟩ := Prod.mk.inj (Except.ok.inj h)
    exact .operand hoperand hname
  cases token with
  | number x => exact hoperand rfl
  | reference name => exact hoperand rfl
  | key name => exact hoperand rfl
  | function name =>
    -- The stack splits below the function names on its top, as the rule asks for.
    obtain ⟨above, below, rfl, habove, hbelow⟩ := List.exists_span Pending.isFunction stack
    have hname' : name ≠ "" := by simpa [Token.isUnnamed] using hname
    rw [step_function strict index hname' habove hbelow] at h
    obtain ⟨rfl, rfl⟩ := Prod.mk.inj (Except.ok.inj h)
    exact .function hname' habove hbelow
  | operator op =>
    obtain ⟨above, below, rfl, habove, hbelow⟩ := List.exists_span (Pending.yieldsTo op) stack
    rw [step_operator strict index habove hbelow] at h
    obtain ⟨rfl, rfl⟩ := Prod.mk.inj (Except.ok.inj h)
    exact .operator habove hbelow
  | punct mark =>
    by_cases hmark : mark = .leftParen
    · subst hmark
      obtain ⟨rfl, rfl⟩ := Prod.mk.inj (Except.ok.inj h)
      exact .leftParen stack
    · exact steps_of_step_closer hmark h

/-! ### Runs -/

theorem run_singleton (strict : Bool) (index : Nat) (stack : List Pending) (token : Token) :
    run strict index stack [token] = step strict index stack token := by
  simp only [run, bind, Except.bind, pure, Except.pure]
  cases step strict index stack token with
  | error e => rfl
  | ok p => simp only [List.append_nil]

/-- The run over `ts ++ us` is a run over `ts` followed by one over `us`. -/
theorem run_append (strict : Bool) (index : Nat) (stack : List Pending) (ts us : List Token) :
    run strict index stack (ts ++ us) = do
      let (output, stack) ← run strict index stack ts
      let (more, stack) ← run strict (index + ts.length) stack us
      return (output ++ more, stack) := by
  induction ts generalizing index stack with
  | nil =>
    simp only [List.nil_append, run, bind, Except.bind, pure, Except.pure, List.length_nil,
      Nat.add_zero]
    cases run strict index stack us <;> rfl
  | cons t ts ih =>
    simp only [List.cons_append, run, bind, Except.bind, pure, Except.pure, List.length_cons]
    cases step strict index stack t with
    | error e => rfl
    | ok p =>
      obtain ⟨output, stack₁⟩ := p
      simp only [ih, bind, Except.bind, pure, Except.pure]
      cases run strict (index + 1) stack₁ ts with
      | error e => rfl
      | ok q =>
        obtain ⟨more, stack₂⟩ := q
        -- The second run starts behind the token that was read first.
        rw [show index + 1 + ts.length = index + (ts.length + 1) by omega]
        cases hus : run strict (index + (ts.length + 1)) stack₂ us with
        | error e => simp only [hus]
        | ok r => simp only [hus, List.append_assoc]

/-- Two accepted runs in a row. -/
theorem run_append_of_ok {strict : Bool} {index : Nat} {stack stack₁ stack₂ : List Pending}
    {ts us output more : List Token} (hts : run strict index stack ts = .ok (output, stack₁))
    (hus : run strict (index + ts.length) stack₁ us = .ok (more, stack₂)) :
    run strict index stack (ts ++ us) = .ok (output ++ more, stack₂) := by
  simp only [run_append, hts, hus, bind, Except.bind, pure, Except.pure]

/-- A step followed by an accepted run. -/
theorem run_cons_of_ok {strict : Bool} {index : Nat} {stack stack₁ stack₂ : List Pending}
    {t : Token} {us output more : List Token}
    (ht : step strict index stack t = .ok (output, stack₁))
    (hus : run strict (index + 1) stack₁ us = .ok (more, stack₂)) :
    run strict index stack (t :: us) = .ok (output ++ more, stack₂) := by
  simp only [run, ht, hus, bind, Except.bind, pure, Except.pure]

/-- An accepted run over a token and more tokens is a step followed by a run. -/
theorem exists_of_run_cons {strict : Bool} {index : Nat} {stack final : List Pending}
    {t : Token} {ts output : List Token}
    (h : run strict index stack (t :: ts) = .ok (output, final)) :
    ∃ first between rest, step strict index stack t = .ok (first, between) ∧
      run strict (index + 1) between ts = .ok (rest, final) ∧ output = first ++ rest := by
  simp only [run, bind, Except.bind, pure, Except.pure] at h
  cases hstep : step strict index stack t with
  | error e => rw [hstep] at h; exact nomatch h
  | ok p =>
    obtain ⟨first, between⟩ := p
    simp only [hstep] at h
    cases hrun : run strict (index + 1) between ts with
    | error e => rw [hrun] at h; exact nomatch h
    | ok q =>
      obtain ⟨rest, last⟩ := q
      simp only [hrun] at h
      obtain ⟨rfl, rfl⟩ := Prod.mk.inj (Except.ok.inj h)
      exact ⟨first, between, rest, rfl, hrun, rfl⟩

/-- An accepted run over `ts ++ us` is an accepted run over `ts` and one over `us`. -/
theorem exists_of_run_append {strict : Bool} {index : Nat} {stack final : List Pending}
    {ts us output : List Token}
    (h : run strict index stack (ts ++ us) = .ok (output, final)) :
    ∃ first between rest, run strict index stack ts = .ok (first, between) ∧
      run strict (index + ts.length) between us = .ok (rest, final) ∧ output = first ++ rest := by
  simp only [run_append, bind, Except.bind, pure, Except.pure] at h
  cases hts : run strict index stack ts with
  | error e => rw [hts] at h; exact nomatch h
  | ok p =>
    obtain ⟨first, between⟩ := p
    simp only [hts] at h
    cases hus : run strict (index + ts.length) between us with
    | error e => rw [hus] at h; exact nomatch h
    | ok q =>
      obtain ⟨rest, last⟩ := q
      simp only [hus] at h
      obtain ⟨rfl, rfl⟩ := Prod.mk.inj (Except.ok.inj h)
      exact ⟨first, between, rest, rfl, hus, rfl⟩

/-- A run fails exactly if a token does, after a run over the tokens before it. -/
theorem run_eq_error_iff {strict : Bool} {index : Nat} {stack : List Pending} {ts : List Token}
    {e : ParseError} :
    run strict index stack ts = .error e ↔
      ∃ before token after output between, ts = before ++ token :: after ∧
        run strict index stack before = .ok (output, between) ∧
        step strict (index + before.length) between token = .error e := by
  constructor
  · intro h
    induction ts generalizing index stack with
    | nil => exact nomatch h
    | cons t ts ih =>
      simp only [run, bind, Except.bind, pure, Except.pure] at h
      -- Either the first token fails, or the failing one is found in the rest.
      cases hstep : step strict index stack t with
      | error e' =>
        rw [hstep] at h
        obtain rfl := Except.error.inj h
        exact ⟨[], t, ts, [], stack, rfl, rfl, hstep⟩
      | ok p =>
        obtain ⟨first, middle⟩ := p
        simp only [hstep] at h
        cases hrest : run strict (index + 1) middle ts with
        | ok q => rw [hrest] at h; exact nomatch h
        | error e' =>
          rw [hrest] at h
          obtain rfl := Except.error.inj h
          obtain ⟨before, token, after, output, between, rfl, hrun, herror⟩ := ih hrest
          refine ⟨t :: before, token, after, first ++ output, between, rfl,
            run_cons_of_ok hstep hrun, ?_⟩
          -- The rest of the run started one index later.
          rwa [List.length_cons, Nat.add_comm before.length 1, ← Nat.add_assoc]
  · rintro ⟨before, token, after, output, between, rfl, hrun, herror⟩
    simp only [run_append, hrun, run, herror, bind, Except.bind]

/-! ### Nothing is lost or invented -/

/-- The output of a token and what waits after it are what waited before, and the token unless it
is punctuation. -/
theorem Steps.perm {strict : Bool} {index : Nat} {stack stack' : List Pending} {token : Token}
    {output : List Token} (h : Steps strict index stack token output stack') :
    (output ++ emit stack').Perm (emit stack ++ [token].filter (!·.isPunct)) := by
  cases h with
  | operand hoperand hname =>
    cases token with
    | number x => exact List.perm_append_comm
    | reference name => exact List.perm_append_comm
    | key name => exact List.perm_append_comm
    | _ => exact nomatch hoperand
  | function hname habove htop =>
    -- What leaves from above comes first on both sides.
    rw [emit_append, List.append_assoc]
    exact (List.perm_append_singleton _ _).symm.append_left _
  | operator habove htop =>
    rw [emit_append, List.append_assoc]
    exact (List.perm_append_singleton _ _).symm.append_left _
  | leftParen => simp [Token.isPunct]
  | comma habove => simp [Token.isPunct]
  | rightParen habove => simp [Token.isPunct]
  | stray hmark hstrict hstack => simp [Token.isPunct]

/-- The output of a run and what waits after it are what waited before, and the tokens that are no
punctuation. -/
theorem perm_of_run {strict : Bool} {index : Nat} {stack stack' : List Pending}
    {ts output : List Token} (h : run strict index stack ts = .ok (output, stack')) :
    (output ++ emit stack').Perm (emit stack ++ ts.filter (!·.isPunct)) := by
  induction ts generalizing index stack output with
  | nil =>
    obtain ⟨rfl, rfl⟩ := Prod.mk.inj (Except.ok.inj h)
    simp
  | cons t ts ih =>
    obtain ⟨first, between, rest, hstep, hrun, rfl⟩ := exists_of_run_cons h
    -- The step exchanges `emit stack` and `t` for `first` and `emit between`; the run goes on
    -- from there.
    have hone : (first ++ emit between ++ ts.filter (!·.isPunct)).Perm
        (emit stack ++ [t].filter (!·.isPunct) ++ ts.filter (!·.isPunct)) :=
      (steps_of_step hstep).perm.append_right _
    rw [List.append_assoc, List.append_assoc (emit stack), ← List.filter_append,
      List.singleton_append] at hone
    rw [List.append_assoc]
    exact ((ih hrun).append_left first).trans hone

/-! ### The end of a text -/

/-- Without a parenthesis that waits, even strict parentheses accept the end of a text. -/
theorem finish_eq_emit (strict : Bool) {stack : List Pending}
    (h : ∀ p ∈ stack, p.isParen = false) : finish strict stack = .ok (emit stack) := by
  have hpass : ∀ p ∈ stack, (!p.isParen) = true := fun p hp => by simp [h p hp]
  have hdrop := @List.dropWhile_append_of_head? _ _ stack [] hpass (by simp)
  rw [List.append_nil] at hdrop
  simp only [finish, hdrop]

/-- What an accepted end of a text sends out is everything that waits. -/
theorem eq_emit_of_finish {strict : Bool} {stack : List Pending} {output : List Token}
    (h : finish strict stack = .ok output) : output = emit stack := by
  simp only [finish] at h
  split at h
  · exact nomatch h
  · exact (Except.ok.inj h).symm

/-- An accepted text has an accepted run, and its end is accepted after this run. -/
theorem exists_of_ofInfix {strictness : Strictness} {ts rpn : List Token}
    (h : ofInfix strictness ts = .ok rpn) :
    ∃ output stack, run strictness.parentheses 0 [] ts = .ok (output, stack) ∧
      finish strictness.parentheses stack = .ok (emit stack) ∧ rpn = output ++ emit stack := by
  simp only [ofInfix, bind, Except.bind, pure, Except.pure] at h
  cases hrun : run strictness.parentheses 0 [] ts with
  | error e => rw [hrun] at h; exact nomatch h
  | ok p =>
    obtain ⟨output, stack⟩ := p
    simp only [hrun] at h
    -- The run is over; what is left can only fail at an open parenthesis.
    cases hfinish : finish strictness.parentheses stack with
    | error e => rw [hfinish] at h; exact nomatch h
    | ok last =>
      obtain rfl := eq_emit_of_finish hfinish
      rw [hfinish] at h
      exact ⟨output, stack, rfl, hfinish, (Except.ok.inj h).symm⟩

/-- The postfix order is a permutation of the tokens that are no punctuation. -/
theorem perm_of_ofInfix {strictness : Strictness} {ts rpn : List Token}
    (h : ofInfix strictness ts = .ok rpn) : rpn.Perm (ts.filter (!·.isPunct)) := by
  obtain ⟨output, stack, hrun, -, rfl⟩ := exists_of_ofInfix h
  exact perm_of_run hrun

end Calculator.Postfix
