import Calculator.Proofs.Parentheses

/-!
# Which tokens have a postfix order

A sequence of tokens is rejected for the first token that may not stand where it does. A function,
reference or key without a name may stand nowhere, and with strict parentheses a comma or closing
parenthesis may not stand where no parenthesis is open (`Rejects`). If all tokens pass, strict
parentheses still reject a sequence in which one is open at the end. Then the last of these is
reported.

How many parentheses are open is a matter of counting, while the conversion keeps them on a stack
together with everything else that waits, and with the positions they were opened at. The number on
the stack is the count (`depth_of_run`), and the positions are where the parentheses stand in the
text (`opened_of_run`).

## Key results

- `step_eq_error_iff`: when a stack does not accept a token
- `run_ok_iff`, `run_error_iff`: the first token that is not accepted, as a condition on the tokens
- `opened_of_run`: where a parenthesis on the stack was opened
- `ofInfix_verdict`: all of it about whole sequences
-/

namespace Calculator.Postfix

open Token (unopenedFrom unopened unclosed)

/-- The error with which a token is rejected behind the tokens before it. -/
inductive Rejects (strict : Bool) (before : List Token) : Token → ParseError → Prop
  | unnamed {t : Token} (hname : t.isUnnamed = true) :
    Rejects strict before t (.unparsedToken t before.length)
  /-- A comma or closing parenthesis where no parenthesis is open. -/
  | stray {mark : Punct} (hstrict : strict = true) (hmark : mark ≠ .leftParen)
    (hopen : unclosed before = 0) :
    Rejects strict before (.punct mark) (.unbalancedParenthesis before.length)

/-- Whether none of the tokens is rejected. -/
def Passes (strict : Bool) (ts : List Token) : Prop :=
  ∀ before t after, ts = before ++ t :: after → ∀ e, ¬ Rejects strict before t e

/-! ### The first token that is not accepted -/

/-- A token is not accepted if it lacks its name, or if parentheses are strict and nothing is open
for it. -/
theorem step_eq_error_iff {strict : Bool} {index : Nat} {stack : List Pending} {token : Token}
    {e : ParseError} :
    step strict index stack token = .error e ↔
      (token.isUnnamed = true ∧ e = .unparsedToken token index) ∨
        (strict = true ∧ depth stack = 0 ∧ e = .unbalancedParenthesis index ∧
          ∃ mark, mark ≠ .leftParen ∧ token = .punct mark) := by
  by_cases hname : token.isUnnamed = true
  · -- Without its name no token gets past the first test, and punctuation needs none.
    have hpunct : ∀ mark, token ≠ .punct mark := by
      rintro mark rfl
      cases hname
    rw [step_unnamed strict index stack hname]
    simp [hname, hpunct, eq_comm]
  have hname' : token.isUnnamed = false := Bool.eq_false_iff.2 hname
  cases token with
  | punct mark =>
    by_cases hmark : mark = .leftParen
    · subst hmark
      simp [step_leftParen, Token.isUnnamed]
    rcases exists_topmost_paren stack with hstack | ⟨above, opened, below, rfl, habove⟩
    · -- Nothing is open, so the setting decides.
      have hzero := depth_eq_zero_iff.2 hstack
      rw [step_stray strict index hmark hstack]
      cases strict <;> simp [hzero, hmark, Token.isUnnamed, eq_comm]
    · -- A parenthesis is open for the token, so it is accepted.
      cases mark with
      | leftParen => exact absurd rfl hmark
      | comma => simp [step_comma strict index opened below habove, Token.isUnnamed]
      | rightParen => simp [step_rightParen strict index opened below habove, Token.isUnnamed]
  | number x => simp [step, Token.isUnnamed]
  | operator op => simp [step, Token.isUnnamed]
  | function name => simp [step, hname']
  | reference name => simp [step, hname']
  | key name => simp [step, hname']

section

variable {strict : Bool} {e : ParseError}

/-- After a run over all tokens before it, a token is not accepted exactly if it is rejected. -/
theorem step_eq_error_iff_rejects {before output : List Token} {between : List Pending}
    {token : Token} (hrun : run strict 0 [] before = .ok (output, between)) :
    step strict before.length between token = .error e ↔ Rejects strict before token e := by
  have hdepth : depth between = unclosed before := depth_of_run hrun
  rw [step_eq_error_iff, hdepth]
  constructor
  · rintro (⟨hname, rfl⟩ | ⟨hstrict, hopen, rfl, mark, hmark, rfl⟩)
    · exact .unnamed hname
    · exact .stray hstrict hmark hopen
  · rintro (hname | ⟨hstrict, hmark, hopen⟩)
    · exact .inl ⟨hname, rfl⟩
    · exact .inr ⟨hstrict, hopen, rfl, _, hmark, rfl⟩

/-- All tokens of an accepted run pass. -/
theorem passes_of_run {ts output : List Token} {stack : List Pending}
    (h : run strict 0 [] ts = .ok (output, stack)) : Passes strict ts := by
  rintro before t after rfl e hrejects
  obtain ⟨first, between, rest, hbefore, hafter, -⟩ := exists_of_run_append h
  -- The run would have stopped at the token.
  have herror : run strict (0 + before.length) between (t :: after) = .error e :=
    run_eq_error_iff.2 ⟨[], t, after, [], between, rfl, rfl, by
      rw [Nat.zero_add]
      exact (step_eq_error_iff_rejects hbefore).2 hrejects⟩
  exact nomatch hafter.symm.trans herror

/-- A run is not accepted exactly if there is a token that is rejected behind others that pass. -/
theorem run_error_iff {ts : List Token} :
    run strict 0 [] ts = .error e ↔
      ∃ before t after, ts = before ++ t :: after ∧ Passes strict before ∧
        Rejects strict before t e := by
  constructor
  · intro h
    -- A run stops at the first token whose step fails.
    obtain ⟨before, t, after, output, between, rfl, hrun, herror⟩ := run_eq_error_iff.1 h
    rw [Nat.zero_add] at herror
    exact ⟨before, t, after, rfl, passes_of_run hrun,
      (step_eq_error_iff_rejects hrun).1 herror⟩
  · rintro ⟨before, t, after, rfl, hpasses, hrejects⟩
    cases hbefore : run strict 0 [] before with
    | ok p =>
      refine run_eq_error_iff.2 ⟨before, t, after, p.1, p.2, rfl, hbefore, ?_⟩
      rw [Nat.zero_add]
      exact (step_eq_error_iff_rejects hbefore).2 hrejects
    | error e' =>
      -- A token before `t` would be rejected.
      obtain ⟨first, u, middle, output, between, rfl, hrun, herror⟩ := run_eq_error_iff.1 hbefore
      rw [Nat.zero_add] at herror
      exact absurd ((step_eq_error_iff_rejects hrun).1 herror) (hpasses first u middle rfl e')

/-- A run is accepted exactly if all tokens pass. -/
theorem run_ok_iff {ts : List Token} :
    (∃ output stack, run strict 0 [] ts = .ok (output, stack)) ↔ Passes strict ts := by
  constructor
  · rintro ⟨output, stack, h⟩
    exact passes_of_run h
  · intro hpasses
    cases hrun : run strict 0 [] ts with
    | ok p => exact ⟨p.1, p.2, rfl⟩
    | error e =>
      -- Otherwise some token would be rejected.
      obtain ⟨before, t, after, rfl, -, hrejects⟩ := run_error_iff.1 hrun
      exact absurd hrejects (hpasses before t after rfl e)

/-- With lenient parentheses all tokens with their names pass. -/
theorem passes_false_iff {ts : List Token} :
    Passes false ts ↔ ∀ t ∈ ts, t.isUnnamed = false := by
  constructor
  · intro hpasses t ht
    obtain ⟨before, after, rfl⟩ := List.append_of_mem ht
    exact Bool.eq_false_iff.2 fun hname => hpasses before t after rfl _ (.unnamed hname)
  · rintro hnames before t after rfl e hrejects
    cases hrejects with
    | unnamed hname => exact nomatch hname.symm.trans (hnames t (by simp))
    | stray hstrict => exact nomatch hstrict

end

/-! ### Where parentheses are opened -/

/-- A parenthesis below an entry of another kind is below it already without the parenthesis that is
looked for. -/
private theorem exists_of_append_paren_eq_cons {opened : Nat} {above below rest : List Pending}
    {p : Pending} (hp : p.isParen = false) (h : above ++ .paren opened :: below = p :: rest) :
    ∃ above', above = p :: above' ∧ rest = above' ++ .paren opened :: below := by
  cases above with
  | nil =>
    obtain ⟨rfl, -⟩ := List.cons.inj h
    exact nomatch hp
  | cons q above' =>
    obtain ⟨rfl, hrest⟩ := List.cons.inj h
    exact ⟨above', rfl, hrest.symm⟩

/-- A parenthesis on the stack after a token was opened by it, or lay there before. In the latter
case the token is no closing parenthesis without a partner among those above it, and changes the
number of these. -/
theorem opened_of_steps {strict : Bool} {index opened : Nat} {stack above below : List Pending}
    {token : Token} {output : List Token}
    (h : Steps strict index stack token output (above ++ .paren opened :: below)) :
    (token = .punct .leftParen ∧ opened = index ∧ above = []) ∨
      ∃ above', stack = above' ++ .paren opened :: below ∧
        unopenedFrom (depth above') [token] = 0 ∧ depth above = token.depthAfter (depth above') := by
  generalize hstack' : above ++ .paren opened :: below = stack' at h
  cases h with
  | operand hoperand hname =>
    have hne : token ≠ .punct .rightParen := fun heq => nomatch heq ▸ hoperand
    refine .inr ⟨above, hstack'.symm, Token.unopenedFrom_cons _ _ hne, ?_⟩
    rw [Token.depthAfter_operand _ hoperand]
  -- What leaves are names, which are no parentheses and do not count.
  | function hname habove htop =>
    obtain ⟨above', rfl, rfl⟩ := exists_of_append_paren_eq_cons rfl hstack'
    refine .inr ⟨_, (List.append_assoc ..).symm, Token.unopenedFrom_cons _ _ (by simp), ?_⟩
    rw [depth_cons_of_not_paren rfl,
      depth_append_of_not_paren fun q hq => isParen_eq_of_isFunction (habove q hq)]
    rfl
  | operator habove htop =>
    obtain ⟨above', rfl, rfl⟩ := exists_of_append_paren_eq_cons rfl hstack'
    refine .inr ⟨_, (List.append_assoc ..).symm, Token.unopenedFrom_cons _ _ (by simp), ?_⟩
    rw [depth_cons_of_not_paren rfl,
      depth_append_of_not_paren fun q hq => isParen_eq_of_yieldsTo (habove q hq)]
    rfl
  -- The parenthesis asked for is the new one on top, or one below it.
  | leftParen =>
    cases above with
    | nil =>
      obtain ⟨hopened, -⟩ := List.cons.inj hstack'
      exact .inl ⟨rfl, Pending.paren.inj hopened, rfl⟩
    | cons p above =>
      obtain ⟨rfl, rfl⟩ := List.cons.inj hstack'
      exact .inr ⟨above, rfl, Token.unopenedFrom_cons _ _ (by simp), depth_paren index above⟩
  | @comma above₁ _ _ habove =>
    -- The comma keeps the parenthesis it meets, which may be the one in question.
    refine .inr ⟨above₁ ++ above, by rw [List.append_assoc, hstack'],
      Token.unopenedFrom_cons _ _ (by simp), ?_⟩
    rw [depth_append_of_not_paren habove]
    rfl
  | @rightParen above₁ _ opened₁ habove =>
    -- The one that is taken away lay above it, so the token has a partner.
    have hdepth : depth (above₁ ++ .paren opened₁ :: above) = depth above + 1 := by
      rw [depth_append_of_not_paren habove, depth_paren]
    refine .inr ⟨above₁ ++ .paren opened₁ :: above, ?_, ?_, ?_⟩
    · rw [List.append_assoc, ← hstack', List.cons_append]
    · rw [hdepth]
      exact Token.unopenedFrom_cons_of_pos _ (Nat.succ_pos _)
    · rw [hdepth]
      rfl
  | stray hmark hstrict hstack => exact absurd hstack' (by simp)

/-- A parenthesis on the stack after a run was opened by a token of the run, or lay there before.
What follows it, or all of the run, closes none but its own parentheses, and leaves those open that
lie above it. -/
theorem opened_of_run {strict : Bool} {index opened : Nat} {stack above below : List Pending}
    {ts output : List Token}
    (h : run strict index stack ts = .ok (output, above ++ .paren opened :: below)) :
    (∃ before after, ts = before ++ .punct .leftParen :: after ∧ opened = index + before.length ∧
        unopened after = 0 ∧ depth above = unclosed after) ∨
      ∃ above', stack = above' ++ .paren opened :: below ∧ unopenedFrom (depth above') ts = 0 ∧
        depth above = ts.foldl Token.depthAfter (depth above') := by
  induction ts generalizing index stack output with
  | nil =>
    obtain ⟨rfl, rfl⟩ := Prod.mk.inj (Except.ok.inj h)
    exact .inr ⟨above, rfl, rfl, rfl⟩
  | cons t ts ih =>
    obtain ⟨first, between, rest, hstep, hrun, rfl⟩ := exists_of_run_cons h
    rcases ih hrun with ⟨before, after, rfl, rfl, hafter⟩ | ⟨above₁, rfl, hunopened, hdepth⟩
    · -- It is opened by a token of the rest.
      refine .inl ⟨t :: before, after, rfl, ?_, hafter⟩
      rw [List.length_cons]
      omega
    · rcases opened_of_steps (steps_of_step hstep) with
        ⟨rfl, rfl, rfl⟩ | ⟨above₀, rfl, hunopened₀, hdepth₀⟩
      · -- It is opened by the first token.
        exact .inl ⟨[], ts, rfl, rfl, hunopened, hdepth⟩
      · rw [hdepth₀] at hunopened hdepth
        refine .inr ⟨above₀, rfl, ?_, hdepth⟩
        -- Neither the first token nor one of the others is without a partner.
        rw [show unopenedFrom (depth above₀) (t :: ts) = unopenedFrom (depth above₀) [t] +
          unopenedFrom (t.depthAfter (depth above₀)) ts from rfl, hunopened₀, hunopened]

/-! ### The parenthesis that is reported -/

/-- What closes no parentheses but its own leaves all others open. -/
theorem foldl_depthAfter_add {ts : List Token} {depth : Nat} (h : unopenedFrom depth ts = 0)
    (n : Nat) : ts.foldl Token.depthAfter (depth + n) = ts.foldl Token.depthAfter depth + n := by
  induction ts generalizing depth with
  | nil => rfl
  | cons t ts ih =>
    obtain ⟨hfirst, hrest⟩ := Nat.add_eq_zero_iff.1 h
    -- A closing parenthesis takes away one of its own.
    have hstep : t.depthAfter (depth + n) = t.depthAfter depth + n := by
      unfold Token.depthAfter
      split
      · omega
      · have hpos : depth ≠ 0 := fun hzero => by simp [hzero] at hfirst
        omega
      · rfl
    rw [List.foldl_cons, List.foldl_cons, hstep, ih hrest]

/-- Whether the parenthesis at a position is never closed, and all that are opened behind it are. -/
def LastOpen (ts : List Token) (index : Nat) : Prop :=
  ∃ before after, ts = before ++ .punct .leftParen :: after ∧ index = before.length ∧
    unopened after = 0 ∧ unclosed after = 0

namespace LastOpen

variable {ts : List Token} {index index' : Nat}

/-- What follows an opening parenthesis, if it does not close it, leaves it open. -/
private theorem unclosed_pos_of_append {before after : List Token} (hafter : unopened after = 0) :
    0 < unclosed (before ++ .punct .leftParen :: after) := by
  have hadd := foldl_depthAfter_add hafter (unclosed before + 1)
  have hopen : unclosed (before ++ .punct .leftParen :: after) =
      after.foldl Token.depthAfter (unclosed before + 1) := by
    rw [unclosed, List.foldl_append, List.foldl_cons]
    rfl
  rw [hopen, ← Nat.zero_add (unclosed before + 1), hadd]
  omega

/-- If one is the last that is open, then one is open. -/
theorem unclosed_pos (h : LastOpen ts index) : 0 < unclosed ts := by
  obtain ⟨before, after, rfl, -, hunopened, -⟩ := h
  exact unclosed_pos_of_append hunopened

private theorem le (h : LastOpen ts index) (h' : LastOpen ts index') : index' ≤ index := by
  obtain ⟨before, after, rfl, rfl, -, hunclosed⟩ := h
  obtain ⟨before', after', hts, rfl, hunopened, -⟩ := h'
  rcases List.append_eq_append_iff.1 hts with ⟨between, rfl, hrest⟩ | ⟨between, rfl, -⟩
  · cases between with
    | nil => simp
    | cons t between =>
      -- The second parenthesis is opened behind the first one, and never closed.
      obtain ⟨-, rfl⟩ := List.cons.inj hrest
      exact absurd hunclosed (Nat.ne_of_gt (unclosed_pos_of_append hunopened))
  · simp

/-- There is only one last parenthesis that is open. -/
theorem eq (h : LastOpen ts index) (h' : LastOpen ts index') : index = index' :=
  Nat.le_antisymm (h'.le h) (h.le h')

end LastOpen

/-- Strict parentheses accept the end of a text if none is open. Otherwise they reject the topmost
one on the stack. -/
theorem finish_true_cases (stack : List Pending) :
    (depth stack = 0 ∧ finish true stack = .ok (emit stack)) ∨
      ∃ above index below, stack = above ++ .paren index :: below ∧ depth above = 0 ∧
        finish true stack = .error (.unbalancedParenthesis index) := by
  rcases exists_topmost_paren stack with hstack | ⟨above, opened, below, rfl, habove⟩
  · have hzero := depth_eq_zero_iff.2 hstack
    exact .inl ⟨hzero, finish_of_depth fun _ => hzero⟩
  · refine .inr ⟨above, opened, below, rfl, depth_eq_zero_iff.2 habove, ?_⟩
    simp only [finish, dropWhile_paren habove]

/-- The parenthesis that strict parentheses reject at the end is the last one that is open. -/
theorem finish_true_eq_error_iff {ts output : List Token} {stack : List Pending} {e : ParseError}
    (hrun : run true 0 [] ts = .ok (output, stack)) :
    finish true stack = .error e ↔ ∃ index, LastOpen ts index ∧ e = .unbalancedParenthesis index := by
  have hdepth : depth stack = unclosed ts := depth_of_run hrun
  rcases finish_true_cases stack with
    ⟨hzero, hfinish⟩ | ⟨above, opened, below, rfl, habove, hfinish⟩
  · rw [hfinish]
    constructor
    · exact nofun
    · rintro ⟨index, hlast, -⟩
      have := hlast.unclosed_pos
      omega
  · -- The topmost parenthesis on the stack is the last one opened that is still open.
    have hlast : LastOpen ts opened := by
      rcases opened_of_run hrun with ⟨before, after, hts, hindex, hunopened, hunclosed⟩ | ⟨_, h, -⟩
      · exact ⟨before, after, hts, by omega, hunopened, hunclosed.symm.trans habove⟩
      · exact absurd h (by simp)
    rw [hfinish]
    constructor
    · intro h
      exact ⟨opened, hlast, (Except.error.inj h).symm⟩
    · rintro ⟨index, hindex, rfl⟩
      rw [hlast.eq hindex]

/-! ### Whole sequences -/

section

variable {strictness : Strictness} {ts : List Token}

/-- A run that fails fails the conversion. -/
theorem ofInfix_of_run_error {e : ParseError} (h : run strictness.parentheses 0 [] ts = .error e) :
    ofInfix strictness ts = .error e := by
  simp only [ofInfix, h, bind, Except.bind]

/-- A run that does not leaves the rest to the end. -/
theorem ofInfix_of_run_ok {output : List Token} {stack : List Pending}
    (h : run strictness.parentheses 0 [] ts = .ok (output, stack)) :
    ofInfix strictness ts = (finish strictness.parentheses stack).map (output ++ ·) := by
  simp only [ofInfix, h, bind, Except.bind, pure, Except.pure]
  cases finish strictness.parentheses stack <;> rfl

/-- A sequence is rejected for one of its tokens, or at its end if all of them pass. -/
theorem ofInfix_eq_error_iff {e : ParseError} :
    ofInfix strictness ts = .error e ↔
      (∃ before t after, ts = before ++ t :: after ∧ Passes strictness.parentheses before ∧
        Rejects strictness.parentheses before t e) ∨
      (strictness.parentheses = true ∧ Passes true ts ∧
        ∃ index, LastOpen ts index ∧ e = .unbalancedParenthesis index) := by
  rw [← run_error_iff]
  cases hrun : run strictness.parentheses 0 [] ts with
  | error e' =>
    rw [ofInfix_of_run_error hrun]
    -- The run has failed, so not all tokens pass, and the end is not reached.
    have hnot : strictness.parentheses = true → ¬ Passes true ts := fun hs hpasses => by
      obtain ⟨output, stack, hok⟩ := run_ok_iff.2 hpasses
      rw [hs, hok] at hrun
      exact nomatch hrun
    constructor
    · intro h
      exact .inl (congrArg Except.error (Except.error.inj h))
    · rintro (h | ⟨hs, hpasses, -⟩)
      · exact congrArg Except.error (Except.error.inj h)
      · exact absurd hpasses (hnot hs)
  | ok p =>
    obtain ⟨output, stack⟩ := p
    have hmap : ∀ result : Except ParseError (List Token),
        result.map (output ++ ·) = .error e ↔ result = .error e := fun result => by
      cases result <;> simp [Except.map]
    rw [ofInfix_of_run_ok hrun, hmap]
    cases hs : strictness.parentheses with
    | false => simp [finish]
    | true =>
      rw [hs] at hrun
      simp [finish_true_eq_error_iff hrun, passes_of_run hrun]

/-- A sequence is accepted if all tokens pass and, with strict parentheses, none is open at its
end. -/
theorem ofInfix_ok_iff :
    (∃ rpn, ofInfix strictness ts = .ok rpn) ↔
      Passes strictness.parentheses ts ∧ (strictness.parentheses = true → unclosed ts = 0) := by
  rw [← run_ok_iff]
  constructor
  · rintro ⟨rpn, h⟩
    obtain ⟨output, stack, hrun, hfinish, -⟩ := exists_of_ofInfix h
    refine ⟨⟨output, stack, hrun⟩, fun hs => ?_⟩
    rw [hs] at hrun hfinish
    -- With a parenthesis left the end would have been rejected.
    rcases finish_true_cases stack with ⟨hzero, -⟩ | ⟨_, _, _, -, -, herror⟩
    · exact (depth_of_run hrun).symm.trans hzero
    · exact nomatch hfinish.symm.trans herror
  · rintro ⟨⟨output, stack, hrun⟩, hclosed⟩
    have hfinish := finish_of_depth fun hs => (depth_of_run hrun).trans (hclosed hs)
    exact ⟨output ++ emit stack, by rw [ofInfix_of_run_ok hrun, hfinish]; rfl⟩

end

/-- With strict parentheses, a sequence of tokens is rejected for the first one that lacks its name,
or that is a comma or closing parenthesis where no parenthesis is open; if there is none, it is
rejected for the last parenthesis that is open at the end; and if there is none of these, either, it
is accepted. With lenient parentheses a sequence is rejected for the first token that lacks its name,
and accepted if there is none. -/
theorem ofInfix_verdict (identifiers : Bool) (ts : List Token) :
    (∀ e, ofInfix ⟨identifiers, true⟩ ts = .error e ↔
      (∃ before t after, ts = before ++ t :: after ∧ Passes true before ∧
        Rejects true before t e) ∨
      (Passes true ts ∧ ∃ index, LastOpen ts index ∧ e = .unbalancedParenthesis index)) ∧
    ((∃ rpn, ofInfix ⟨identifiers, true⟩ ts = .ok rpn) ↔ Passes true ts ∧ unclosed ts = 0) ∧
    (∀ e, ofInfix ⟨identifiers, false⟩ ts = .error e ↔
      ∃ before t after, ts = before ++ t :: after ∧ (∀ u ∈ before, u.isUnnamed = false) ∧
        t.isUnnamed = true ∧ e = .unparsedToken t before.length) ∧
    ((∃ rpn, ofInfix ⟨identifiers, false⟩ ts = .ok rpn) ↔ ∀ t ∈ ts, t.isUnnamed = false) := by
  refine ⟨fun e => ?_, ?_, fun e => ?_, ?_⟩
  · rw [ofInfix_eq_error_iff]
    simp
  · rw [ofInfix_ok_iff]
    simp
  · -- Only a missing name is rejected, as nothing needs a partner.
    have hrejects : ∀ before t, Rejects false before t e ↔
        t.isUnnamed = true ∧ e = .unparsedToken t before.length := fun before t => by
      constructor
      · intro h
        cases h with
        | unnamed hname => exact ⟨hname, rfl⟩
        | stray hstrict => exact nomatch hstrict
      · rintro ⟨hname, rfl⟩
        exact .unnamed hname
    rw [ofInfix_eq_error_iff]
    simp [hrejects, passes_false_iff]
  · rw [ofInfix_ok_iff]
    simp [passes_false_iff]

/-- The parenthesis at position 1 is closed, so the one before it is the last that is open. -/
example : ofInfix .strict [.punct .leftParen, .punct .leftParen, .number 1, .punct .rightParen] =
    .error (.unbalancedParenthesis 0) := rfl

/-- The sigil in `1 + $` is a reference without a name, which is rejected even by lenient rules. -/
example : ofInfix .lenient [.number 1, .operator .add, .reference ""] =
    .error (.unparsedToken (.reference "") 2) := rfl

end Calculator.Postfix
