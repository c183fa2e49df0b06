import Calculator.Proofs.PostfixRun

/-!
# Parentheses without a partner

Lenient parentheses give every sequence of tokens a meaning, and this is the meaning that strict
parentheses give it once it is balanced: with an opening parenthesis in front for each closing one
that has no partner, and a closing one behind for each that is never closed. One pair more around
all of it gives commas outside parentheses something to meet, too.

The two conversions run over the same tokens with stacks that differ at the bottom, where the
parentheses in front lie (`Over`). A closing parenthesis without a partner takes one of them away,
and nothing else reaches them. Where a parenthesis was opened is recorded on the stack but has no
influence on the output.

## Key results

- `depth_of_steps`, `depth_of_run`: the parentheses on the stack are those that are open
- `Over.step`, `Over.run`: the same output from a stack with parentheses at its bottom
- `run_closers`: closing parentheses at the end send out what would leave anyway
- `ofInfix_wrap`: parentheses around a text, under either policy
- `ofInfix_wrap_eq`: lenient parentheses ignore parentheses around a text, and agree with strict
  ones on the balanced text
-/

namespace Calculator

/-! ### Counting -/

namespace Token

/-- The number of parentheses that are open behind a token, if `depth` are open in front of it. -/
def depthAfter (depth : Nat) : Token → Nat
  | .punct .leftParen => depth + 1
  | .punct .rightParen => depth - 1
  | _ => depth

/-- The number of closing parentheses without a partner, if `depth` are open in front. -/
def unopenedFrom (depth : Nat) : List Token → Nat
  | [] => 0
  | t :: ts =>
    (if t = .punct .rightParen ∧ depth = 0 then 1 else 0) + unopenedFrom (t.depthAfter depth) ts

/-- The number of closing parentheses that match no opening one. -/
def unopened (ts : List Token) : Nat := unopenedFrom 0 ts

/-- The number of opening parentheses that are never closed. -/
def unclosed (ts : List Token) : Nat := ts.foldl depthAfter 0

/-- Tokens with opening parentheses in front and closing ones behind. -/
def wrap (front : Nat) (ts : List Token) (behind : Nat) : List Token :=
  List.replicate front (.punct .leftParen) ++ ts ++ List.replicate behind (.punct .rightParen)

@[simp] theorem unopenedFrom_nil (depth : Nat) : unopenedFrom depth [] = 0 := rfl

/-- Only a closing parenthesis can be without a partner here. -/
theorem unopenedFrom_cons (depth : Nat) {t : Token} (ts : List Token)
    (ht : t ≠ .punct .rightParen) :
    unopenedFrom depth (t :: ts) = unopenedFrom (t.depthAfter depth) ts := by
  simp [unopenedFrom, ht]

/-- A closing parenthesis has a partner if one is open. -/
theorem unopenedFrom_cons_of_pos {depth : Nat} (ts : List Token) (h : 0 < depth) :
    unopenedFrom depth (.punct .rightParen :: ts) = unopenedFrom (depth - 1) ts := by
  have hne : depth ≠ 0 := by omega
  simp [unopenedFrom, depthAfter, hne]

theorem unopenedFrom_cons_zero (ts : List Token) :
    unopenedFrom 0 (.punct .rightParen :: ts) = 1 + unopenedFrom 0 ts := by
  simp [unopenedFrom, depthAfter]

/-- Operands open and close nothing. -/
theorem depthAfter_operand (depth : Nat) {t : Token} (h : t.isOperand = true) :
    t.depthAfter depth = depth := by
  cases t with
  | punct mark => exact nomatch h
  | _ => rfl

end Token

namespace Postfix

open Token (unopenedFrom unopened unclosed wrap)

/-- The number of parentheses on a stack. -/
def depth (stack : List Pending) : Nat := stack.countP Pending.isParen

@[simp] theorem depth_nil : depth [] = 0 := rfl

@[simp] theorem depth_append (above below : List Pending) :
    depth (above ++ below) = depth above + depth below := List.countP_append

@[simp] theorem depth_paren (index : Nat) (stack : List Pending) :
    depth (.paren index :: stack) = depth stack + 1 := List.countP_cons_of_pos rfl

theorem depth_cons_of_not_paren {p : Pending} (hp : p.isParen = false) (stack : List Pending) :
    depth (p :: stack) = depth stack := List.countP_cons_of_neg (by simp [hp])

/-- Without parentheses there is nothing open. -/
theorem depth_eq_zero_iff {stack : List Pending} :
    depth stack = 0 ↔ ∀ p ∈ stack, p.isParen = false := by
  simp [depth, List.countP_eq_zero]

/-- Entries above that are no parentheses do not count. -/
theorem depth_append_of_not_paren {above : List Pending} (habove : ∀ q ∈ above, q.isParen = false)
    (below : List Pending) : depth (above ++ below) = depth below := by
  rw [depth_append, depth_eq_zero_iff.2 habove, Nat.zero_add]

/-- What leaves before an operator is no parenthesis. -/
theorem isParen_eq_of_yieldsTo {p : Pending} {op : Operator} (h : p.yieldsTo op = true) :
    p.isParen = false := by
  cases p with
  | paren index => exact nomatch h
  | _ => rfl

theorem isParen_eq_of_isFunction {p : Pending} (h : p.isFunction = true) : p.isParen = false := by
  cases p with
  | paren index => exact nomatch h
  | _ => rfl

/-- The parentheses on the stack are those that are open. -/
theorem depth_of_steps {strict : Bool} {index : Nat} {stack stack' : List Pending} {token : Token}
    {output : List Token} (h : Steps strict index stack token output stack') :
    depth stack' = token.depthAfter (depth stack) := by
  cases h with
  | operand hoperand hname => rw [Token.depthAfter_operand _ hoperand]
  -- Only names leave, and a name comes: the count stays.
  | function hname habove htop =>
    rw [depth_cons_of_not_paren rfl,
      depth_append_of_not_paren fun q hq => isParen_eq_of_isFunction (habove q hq)]
    rfl
  -- What leaves before an operator is no parenthesis, either.
  | operator habove htop =>
    rw [depth_cons_of_not_paren rfl,
      depth_append_of_not_paren fun q hq => isParen_eq_of_yieldsTo (habove q hq)]
    rfl
  | leftParen => exact depth_paren index stack
  | comma habove =>
    rw [depth_append_of_not_paren habove]
    rfl
  -- The parenthesis that is met is taken away, as the token says.
  | rightParen habove =>
    rw [depth_append_of_not_paren habove, depth_paren]
    rfl
  | @stray _ mark hmark hstrict hstack =>
    -- Nothing is open, and a closing parenthesis does not change that.
    rw [depth_eq_zero_iff.2 hstack]
    cases mark with
    | leftParen => exact absurd rfl hmark
    | rightParen => rfl
    | comma => rfl

/-- The parentheses on the stack after a run are those that are open. -/
theorem depth_of_run {strict : Bool} {index : Nat} {stack stack' : List Pending}
    {ts output : List Token} (h : run strict index stack ts = .ok (output, stack')) :
    depth stack' = ts.foldl Token.depthAfter (depth stack) := by
  induction ts generalizing index stack output with
  | nil =>
    obtain ⟨rfl, rfl⟩ := Prod.mk.inj (Except.ok.inj h)
    rfl
  | cons t ts ih =>
    obtain ⟨first, between, rest, hstep, hrun, rfl⟩ := exists_of_run_cons h
    rw [ih hrun, depth_of_steps (steps_of_step hstep), List.foldl_cons]

/-! ### Stacks with parentheses at the bottom -/

/-- `Over n stack deeper`: the second stack is the first one on top of `n` parentheses. The
positions that parentheses were opened at may differ. -/
inductive Over : Nat → List Pending → List Pending → Prop
  | nil : Over 0 [] []
  | bottom {n : Nat} {deeper : List Pending} (index : Nat) (h : Over n [] deeper) :
    Over (n + 1) [] (.paren index :: deeper)
  | opened {n : Nat} {stack deeper : List Pending} (index index' : Nat)
    (h : Over n stack deeper) : Over n (.paren index :: stack) (.paren index' :: deeper)
  | entry {n : Nat} {stack deeper : List Pending} {p : Pending} (hp : p.isParen = false)
    (h : Over n stack deeper) : Over n (p :: stack) (p :: deeper)

namespace Over

variable {n : Nat} {stack stack' deeper : List Pending}

/-- Parentheses at the bottom are not in the output. -/
theorem emit_eq (h : Over n stack deeper) : emit deeper = emit stack := by
  induction h with
  | nil => rfl
  | bottom index _ ih => exact ih
  | opened index index' _ ih => exact ih
  | @entry _ stack deeper p hp _ ih =>
    rw [show p :: deeper = [p] ++ deeper from rfl, show p :: stack = [p] ++ stack from rfl,
      emit_append, emit_append, ih]

/-- They are on the stack. -/
theorem depth_eq (h : Over n stack deeper) : depth deeper = depth stack + n := by
  induction h with
  | nil => rfl
  | bottom index _ ih => rw [depth_paren, ih]; omega
  | opened index index' _ ih => rw [depth_paren, depth_paren, ih]; omega
  | entry hp _ ih => rw [depth_cons_of_not_paren hp, depth_cons_of_not_paren hp, ih]

/-- Entries that are no parentheses are the same on both stacks. -/
theorem exists_of_append {above below : List Pending} (h : Over n (above ++ below) deeper)
    (habove : ∀ q ∈ above, q.isParen = false) :
    ∃ lower, deeper = above ++ lower ∧ Over n below lower := by
  induction above generalizing deeper with
  | nil => exact ⟨deeper, rfl, h⟩
  | cons p above ih =>
    obtain ⟨hp, habove⟩ := List.forall_mem_cons.1 habove
    -- The topmost entry is no parenthesis, so both stacks have it on top.
    cases h with
    | opened index index' h => exact nomatch hp
    | entry _ h =>
      obtain ⟨lower, rfl, hlower⟩ := ih h habove
      exact ⟨lower, rfl, hlower⟩

/-- What stops at parentheses and at the top of one stack stops at the top of the other. -/
theorem head_eq_false {p : Pending → Bool} (h : Over n stack deeper)
    (hparen : ∀ index, p (.paren index) = false) (htop : ∀ top ∈ stack.head?, p top = false) :
    ∀ top ∈ deeper.head?, p top = false := by
  cases h with
  | nil => exact htop
  | bottom index _ => simpa using hparen index
  | opened index index' _ => simpa using hparen index'
  | entry hp _ => simpa using htop

/-- The nearest parenthesis of one stack stands where that of the other does. -/
theorem exists_of_paren {index : Nat} (h : Over n (.paren index :: stack) deeper) :
    ∃ index' lower, deeper = .paren index' :: lower ∧ Over n stack lower := by
  cases h with
  | opened _ index' h => exact ⟨index', _, rfl, h⟩
  | entry hp _ => exact nomatch hp

/-- What a token does to a stack, it does above parentheses at the bottom. A closing parenthesis
without a partner takes one of those away. Strict parentheses accept this as long as one of them
is left. -/
theorem step {strict : Bool} {index : Nat} (index' : Nat) {token : Token} {output : List Token}
    (h : Over n stack deeper) (hsteps : Steps false index stack token output stack')
    (hroom : strict = true → unopenedFrom (depth stack) [token] < n) :
    ∃ deeper', Postfix.step strict index' deeper token = .ok (output, deeper') ∧
      Over (n - unopenedFrom (depth stack) [token]) stack' deeper' := by
  cases hsteps with
  | operand hoperand hname =>
    have hne : token ≠ .punct .rightParen := fun heq => nomatch heq ▸ hoperand
    rw [Token.unopenedFrom_cons _ _ hne]
    exact ⟨deeper, step_operand strict index' deeper hoperand hname, h⟩
  | function hname habove htop =>
    obtain ⟨lower, rfl, hlower⟩ :=
      h.exists_of_append fun q hq => isParen_eq_of_isFunction (habove q hq)
    have htop' := hlower.head_eq_false (fun _ => rfl) htop
    rw [Token.unopenedFrom_cons _ _ (by simp)]
    exact ⟨_, step_function strict index' hname habove htop', .entry rfl hlower⟩
  | operator habove htop =>
    obtain ⟨lower, rfl, hlower⟩ :=
      h.exists_of_append fun q hq => isParen_eq_of_yieldsTo (habove q hq)
    have htop' := hlower.head_eq_false (fun _ => rfl) htop
    rw [Token.unopenedFrom_cons _ _ (by simp)]
    exact ⟨_, step_operator strict index' habove htop', .entry rfl hlower⟩
  | leftParen =>
    rw [Token.unopenedFrom_cons _ _ (by simp)]
    exact ⟨_, step_leftParen strict index' deeper, .opened index index' h⟩
  | comma habove =>
    obtain ⟨lower, rfl, hlower⟩ := h.exists_of_append habove
    obtain ⟨opened', lower, rfl, hbelow⟩ := hlower.exists_of_paren
    rw [Token.unopenedFrom_cons _ _ (by simp)]
    exact ⟨_, step_comma strict index' opened' lower habove, .opened _ opened' hbelow⟩
  | @rightParen above _ opened habove =>
    obtain ⟨lower, rfl, hlower⟩ := h.exists_of_append habove
    obtain ⟨opened', lower, rfl, hbelow⟩ := hlower.exists_of_paren
    -- The parenthesis is closed by the token, so the token has a partner.
    have hopen : 0 < depth (above ++ .paren opened :: stack') := by
      rw [depth_append, depth_paren]
      omega
    rw [Token.unopenedFrom_cons_of_pos _ hopen]
    exact ⟨_, step_rightParen strict index' opened' lower habove, hbelow⟩
  | @stray _ mark hmark hstrict hstack =>
    rw [← List.append_nil stack] at h
    obtain ⟨lower, rfl, hlower⟩ := h.exists_of_append hstack
    rw [depth_eq_zero_iff.2 hstack] at hroom ⊢
    cases hlower with
    | nil =>
      -- With nothing at the bottom the token meets nothing, which is not strict.
      have hlenient : strict = false :=
        Bool.eq_false_iff.2 fun hs => Nat.not_lt_zero _ (hroom hs)
      refine ⟨[], ?_, by rw [Nat.zero_sub]; exact .nil⟩
      rw [List.append_nil, step_stray strict index' hmark hstack, hlenient]
      rfl
    | @bottom n rest opened' hrest =>
      -- Otherwise it meets the topmost of the parentheses at the bottom.
      cases mark with
      | leftParen => exact absurd rfl hmark
      | comma =>
        rw [Token.unopenedFrom_cons _ _ (by simp)]
        exact ⟨_, step_comma strict index' opened' rest hstack, .bottom opened' hrest⟩
      | rightParen =>
        rw [Token.unopenedFrom_cons_zero]
        exact ⟨_, step_rightParen strict index' opened' rest hstack, hrest⟩

/-- What tokens do to a stack, they do above parentheses at the bottom. -/
theorem run {strict : Bool} {index : Nat} (index' : Nat) {ts output : List Token}
    (h : Over n stack deeper) (hrun : Postfix.run false index stack ts = .ok (output, stack'))
    (hroom : strict = true → unopenedFrom (depth stack) ts < n) :
    ∃ deeper', Postfix.run strict index' deeper ts = .ok (output, deeper') ∧
      Over (n - unopenedFrom (depth stack) ts) stack' deeper' := by
  induction ts generalizing n stack deeper output index index' with
  | nil =>
    obtain ⟨rfl, rfl⟩ := Prod.mk.inj (Except.ok.inj hrun)
    exact ⟨deeper, rfl, h⟩
  | cons t ts ih =>
    obtain ⟨first, between, rest, hstep, hrest, rfl⟩ := exists_of_run_cons hrun
    have hsteps := steps_of_step hstep
    -- The tokens without a partner are the first, if it has none, and those of the rest.
    have hsplit : unopenedFrom (depth stack) (t :: ts) =
        unopenedFrom (depth stack) [t] + unopenedFrom (depth between) ts := by
      rw [depth_of_steps hsteps]; rfl
    rw [hsplit] at hroom ⊢
    -- There is room for the first token, and what it leaves is room for the rest.
    obtain ⟨deeper₁, hstep', hover₁⟩ :=
      h.step index' hsteps fun hs => Nat.lt_of_le_of_lt (Nat.le_add_right _ _) (hroom hs)
    obtain ⟨deeper₂, hrun', hover₂⟩ := ih (index' + 1) hover₁ hrest fun hs => by
      have := hroom hs
      omega
    refine ⟨deeper₂, run_cons_of_ok hstep' hrun', ?_⟩
    rw [← Nat.sub_sub]
    exact hover₂

end Over

/-! ### Parentheses around a text -/

/-- Lenient parentheses accept every token that is not without its name. -/
theorem exists_step_of_named (index : Nat) (stack : List Pending) {token : Token}
    (hname : token.isUnnamed = false) :
    ∃ output stack', step false index stack token = .ok (output, stack') := by
  cases token with
  | number x => exact ⟨_, _, rfl⟩
  | reference name => exact ⟨_, _, step_operand false index stack rfl hname⟩
  | key name => exact ⟨_, _, step_operand false index stack rfl hname⟩
  | operator op => exact ⟨_, _, rfl⟩
  | function name =>
    simp only [step, hname, Bool.false_eq_true, ↓reduceIte]
    exact ⟨_, _, rfl⟩
  | punct mark =>
    cases mark with
    | leftParen => exact ⟨_, _, rfl⟩
    -- With a parenthesis to meet or without one, a comma and a closing parenthesis get through.
    | _ =>
      simp only [step, hname, Bool.false_eq_true, ↓reduceIte]
      split
      · exact ⟨_, _, rfl⟩
      · exact ⟨_, _, rfl⟩

/-- So they accept all tokens that have their names. -/
theorem exists_run_of_named (index : Nat) (stack : List Pending) {ts : List Token}
    (hnames : ∀ t ∈ ts, t.isUnnamed = false) :
    ∃ output stack', run false index stack ts = .ok (output, stack') := by
  induction ts generalizing index stack with
  | nil => exact ⟨[], stack, rfl⟩
  | cons t ts ih =>
    obtain ⟨hname, hnames⟩ := List.forall_mem_cons.1 hnames
    obtain ⟨first, between, hstep⟩ := exists_step_of_named index stack hname
    obtain ⟨rest, stack', hrun⟩ := ih (index + 1) between hnames
    exact ⟨first ++ rest, stack', run_cons_of_ok hstep hrun⟩

/-- Opening parentheses come to lie at the bottom. -/
theorem run_openers (strict : Bool) (index : Nat) {n : Nat} {deeper : List Pending}
    (h : Over n [] deeper) (count : Nat) :
    ∃ deeper', run strict index deeper (List.replicate count (.punct .leftParen)) =
        .ok ([], deeper') ∧ Over (n + count) [] deeper' := by
  induction count generalizing n index deeper with
  | zero => exact ⟨deeper, rfl, h⟩
  | succ count ih =>
    obtain ⟨deeper', hrun, hover⟩ := ih (index + 1) (.bottom index h)
    refine ⟨deeper', run_cons_of_ok (step_leftParen strict index deeper) hrun, ?_⟩
    rwa [Nat.add_right_comm] at hover

/-- A closing parenthesis sends out what would leave before everything else anyway. Strict
parentheses accept it if one is open. -/
theorem step_closer {strict : Bool} (index : Nat) {stack : List Pending}
    (hopen : strict = true → 0 < depth stack) :
    ∃ output stack', step strict index stack (.punct .rightParen) = .ok (output, stack') ∧
      output ++ emit stack' = emit stack ∧ depth stack' = depth stack - 1 := by
  rcases exists_topmost_paren stack with hstack | ⟨above, opened, below, rfl, habove⟩
  · have hzero := depth_eq_zero_iff.2 hstack
    -- Nothing is open, which strict parentheses do not allow here.
    have hlenient : strict = false := Bool.eq_false_iff.2 fun hs => by
      have := hopen hs
      simp [hzero] at this
    refine ⟨emit stack, [], ?_, by simp, by simp [hzero]⟩
    rw [step_stray strict index (by simp) hstack, hlenient]
    rfl
  · have hzero := depth_eq_zero_iff.2 habove
    exact ⟨emit above, below, step_rightParen strict index opened below habove, by simp,
      by simp [hzero]⟩

/-- Closing parentheses at the end send out what would leave anyway. -/
theorem run_closers {strict : Bool} (index : Nat) {stack : List Pending} {count : Nat}
    (hopen : strict = true → count ≤ depth stack) :
    ∃ output stack', run strict index stack (List.replicate count (.punct .rightParen)) =
        .ok (output, stack') ∧ output ++ emit stack' = emit stack ∧
      depth stack' = depth stack - count := by
  induction count generalizing index stack with
  | zero => exact ⟨[], stack, rfl, rfl, rfl⟩
  | succ count ih =>
    obtain ⟨first, between, hstep, hfirst, hdepth⟩ :=
      step_closer index fun hs => Nat.zero_lt_of_lt (hopen hs)
    -- Each of them closes one, so one less is needed for the rest.
    have hopen' : strict = true → count ≤ depth between := fun hs => by
      have := hopen hs
      omega
    obtain ⟨rest, stack', hrun, hrest, hdepth'⟩ := ih (index + 1) hopen'
    refine ⟨first ++ rest, stack', run_cons_of_ok hstep hrun, ?_, ?_⟩
    · rw [List.append_assoc, hrest, hfirst]
    · omega

/-- Strict parentheses accept the end of a text if none is open. -/
theorem finish_of_depth {strict : Bool} {stack : List Pending}
    (h : strict = true → depth stack = 0) : finish strict stack = .ok (emit stack) := by
  cases strict with
  | false => rfl
  | true => exact finish_eq_emit true (depth_eq_zero_iff.1 (h rfl))

/-- Parentheses around a text do not change its postfix order. Strict parentheses accept them if
more are put in front than the text needs, and as many behind as are then open. -/
theorem ofInfix_wrap {strictness : Strictness} {ts output : List Token} {stack : List Pending}
    (hrun : run false 0 [] ts = .ok (output, stack)) {front behind : Nat}
    (hfront : strictness.parentheses = true → unopened ts < front)
    (hbehind : strictness.parentheses = true → behind = unclosed ts + (front - unopened ts)) :
    ofInfix strictness (wrap front ts behind) = .ok (output ++ emit stack) := by
  obtain ⟨opened, hopeners, hover⟩ := run_openers strictness.parentheses 0 .nil front
  rw [Nat.zero_add] at hover
  obtain ⟨deeper, hts, hover'⟩ :=
    hover.run (0 + (List.replicate front (Token.punct .leftParen)).length) hrun hfront
  -- Behind the text those are open that it leaves open, and those in front that it has not used up.
  have hdeeper : depth deeper = unclosed ts + (front - unopened ts) := by
    rw [hover'.depth_eq, depth_of_run hrun]
    rfl
  obtain ⟨last, rest, hclosers, hlast, hrest⟩ :=
    run_closers (0 + (List.replicate front (Token.punct .leftParen) ++ ts).length)
      (fun hs => Nat.le_of_eq ((hbehind hs).trans hdeeper.symm))
  have hall := run_append_of_ok (run_append_of_ok hopeners hts) hclosers
  -- The closing parentheses behind have closed them all.
  have hfinish : finish strictness.parentheses rest = .ok (emit rest) :=
    finish_of_depth fun hs => by rw [hrest, hdeeper, hbehind hs, Nat.sub_self]
  simp only [ofInfix, wrap, hall, hfinish, bind, Except.bind, pure, Except.pure]
  rw [List.nil_append, List.append_assoc, hlast, hover'.emit_eq]

/-- Lenient parentheses give every text without missing names a postfix order. Neither opening
parentheses in front of the text nor closing ones behind it change it. It is the order that strict
parentheses give to the text in a pair of parentheses, with one opening parenthesis more for each
closing one without a partner, and one closing parenthesis more for each that is never closed. -/
theorem ofInfix_wrap_eq {ts : List Token} (hnames : ∀ t ∈ ts, t.isUnnamed = false)
    (identifiers : Bool) :
    ∃ rpn, ofInfix ⟨identifiers, false⟩ ts = .ok rpn ∧
      (∀ front behind, ofInfix ⟨identifiers, false⟩ (wrap front ts behind) = .ok rpn) ∧
      ofInfix ⟨identifiers, true⟩ (wrap (unopened ts + 1) ts (unclosed ts + 1)) = .ok rpn := by
  obtain ⟨output, stack, hrun⟩ := exists_run_of_named 0 [] hnames
  have hlenient : ∀ front behind,
      ofInfix ⟨identifiers, false⟩ (wrap front ts behind) = .ok (output ++ emit stack) :=
    fun front behind => ofInfix_wrap hrun (fun h => nomatch h) (fun h => nomatch h)
  have hbare : wrap 0 ts 0 = ts := by simp [wrap]
  refine ⟨output ++ emit stack, ?_, hlenient, ?_⟩
  · -- The text itself has no parentheses around it.
    have h := hlenient 0 0
    rwa [hbare] at h
  · exact ofInfix_wrap hrun (fun _ => Nat.lt_succ_self _) (fun _ => by omega)

open Token Punct in
/-- `1 - 2), (3 ^ (SQRT` has one closing parenthesis too many, a comma outside parentheses and two
parentheses that are never closed. -/
theorem ofInfix_wrap_stray_comma :
    ∃ rpn,
      ofInfix .lenient
          [number 1, operator .sub, number 2, punct rightParen, punct comma, punct leftParen,
            number 3, operator .pow, punct leftParen, function "SQRT"] = .ok rpn ∧
      (∀ front behind,
        ofInfix .lenient (wrap front
          [number 1, operator .sub, number 2, punct rightParen, punct comma, punct leftParen,
            number 3, operator .pow, punct leftParen, function "SQRT"] behind) = .ok rpn) ∧
      ofInfix ⟨false, true⟩
          [punct leftParen, punct leftParen,
            number 1, operator .sub, number 2, punct rightParen, punct comma, punct leftParen,
            number 3, operator .pow, punct leftParen, function "SQRT",
            punct rightParen, punct rightParen, punct rightParen] = .ok rpn :=
  @ofInfix_wrap_eq
    [number 1, operator .sub, number 2, punct rightParen, punct comma, punct leftParen, number 3,
      operator .pow, punct leftParen, function "SQRT"]
    (by simp [Token.isUnnamed]) false

end Postfix

end Calculator
