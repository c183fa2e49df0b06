import Calculator.Proofs.PostfixRun
import Mathlib.Data.List.Chain

/-!
# In what order entries wait

While tokens are put into postfix order, the operators that wait form layers. Directly above one of
them there is only an operator that binds tighter, or a power above a power, until a parenthesis
starts afresh. A function name waits on top, or under the opening parenthesis of its arguments.

All of this follows from what may wait directly above what (`Pending.RestsOn`). A token takes
entries off the top and puts at most one entry on what is left, so only this one has to be compared
with the entry that it comes to lie on.

## Key results

- `yieldsTo_operator_eq_false_iff`: which operators stay when another one comes
- `isChain_of_steps`, `isChain_of_run`: what a token and a run keep
- `exists_operator_of_mem`: below the top of a part without parentheses there are only operators
- `layered_of_reached`: the shape of every stack that is reached
-/

namespace Calculator.Postfix

open Pending (yieldsTo)

/-! ### Neighbours -/

/-- Whether an operator may wait directly above another one: it binds tighter, or both are
powers. -/
def Outranks (upper lower : Operator) : Prop :=
  lower.precedence < upper.precedence ∨ lower = .pow ∧ upper = .pow

/-- What may wait above an operator may wait above those further down. -/
theorem Outranks.trans {p q r : Operator} (hpq : Outranks p q) (hqr : Outranks q r) :
    Outranks p r := by
  rcases hpq with hlt | ⟨rfl, rfl⟩
  · rcases hqr with hlt' | ⟨rfl, rfl⟩
    · exact .inl (Nat.lt_trans hlt' hlt)
    · exact .inl hlt
  · exact hqr

/-- An operator stays when another one comes exactly if that one may wait above it. -/
theorem yieldsTo_operator_eq_false_iff {upper lower : Operator} :
    (Pending.operator lower).yieldsTo upper = false ↔ Outranks upper lower := by
  simp only [yieldsTo, Outranks, Bool.or_eq_false_iff, Bool.and_eq_false_iff,
    decide_eq_false_iff_not, beq_eq_false_iff_ne, ne_eq, Operator.associativity_eq_left_iff,
    Decidable.not_not]
  constructor
  · rintro ⟨hle, hne | rfl⟩
    · exact .inl (by omega)
    · -- Nothing binds tighter than a power, and nothing else as tightly.
      by_cases hlt : lower.precedence < Operator.pow.precedence
      · exact .inl hlt
      · exact .inr ⟨Operator.eq_pow_of_le_precedence (Nat.le_of_not_lt hlt), rfl⟩
  · rintro (hlt | ⟨rfl, rfl⟩)
    · exact ⟨by omega, .inl (by omega)⟩
    · exact ⟨by omega, .inr rfl⟩

/-- Whether an entry may wait directly above another one. A function name bears opening parentheses
only, and an operator bears no operator for which it would have left. -/
structure Pending.RestsOn (upper lower : Pending) : Prop where
  isParen : lower.isFunction = true → upper.isParen = true
  outranks : ∀ {p q : Operator}, lower = .operator p → upper = .operator q → Outranks q p

/-- Anything bears an opening parenthesis. -/
theorem Pending.RestsOn.paren (index : Nat) (lower : Pending) : RestsOn (.paren index) lower :=
  ⟨fun _ => rfl, nofun⟩

/-- Anything but a function name bears a function name. -/
theorem Pending.RestsOn.function {name : String} {lower : Pending}
    (h : lower.isFunction = false) : RestsOn (.function name) lower where
  isParen hfunction := nomatch h.symm.trans hfunction
  outranks _ hoperator := nomatch hoperator

/-- What does not leave before an operator bears it. -/
theorem Pending.RestsOn.operator {op : Operator} {lower : Pending}
    (h : lower.yieldsTo op = false) : RestsOn (.operator op) lower := by
  refine ⟨fun hfunction => ?_, ?_⟩
  · cases lower with
    | function name => exact nomatch h
    | operator op => exact nomatch hfunction
    | paren index => exact nomatch hfunction
  · rintro p q rfl heq
    obtain rfl := Pending.operator.inj heq
    exact yieldsTo_operator_eq_false_iff.1 h

/-! ### Steps and runs -/

section

variable {strict : Bool} {index : Nat} {stack stack' : List Pending} {output : List Token}

/-- A token keeps the order of what waits: the rest of the stack is as it was, and bears the entry
that the token puts on it. -/
theorem isChain_of_steps {token : Token} (h : Steps strict index stack token output stack')
    (hstack : stack.IsChain Pending.RestsOn) : stack'.IsChain Pending.RestsOn := by
  have hbelow : ∀ {above below : List Pending}, (above ++ below).IsChain Pending.RestsOn →
      below.IsChain Pending.RestsOn := fun hall => hall.suffix (List.suffix_append _ _)
  cases h with
  | operand => exact hstack
  | function hname habove htop =>
    -- The entries that leave are those that could not bear the new one.
    exact List.isChain_cons.2 ⟨fun top hmem => .function (htop top hmem), hbelow hstack⟩
  | operator habove htop =>
    exact List.isChain_cons.2 ⟨fun top hmem => .operator (htop top hmem), hbelow hstack⟩
  | leftParen => exact List.isChain_cons.2 ⟨fun top _ => .paren index top, hstack⟩
  | comma => exact hbelow hstack
  -- The parenthesis leaves, too, and uncovers the rest.
  | rightParen => exact (hbelow hstack).tail
  | stray => exact List.isChain_nil

/-- A run keeps the order of what waits. -/
theorem isChain_of_run {ts : List Token} (h : run strict index stack ts = .ok (output, stack'))
    (hstack : stack.IsChain Pending.RestsOn) : stack'.IsChain Pending.RestsOn := by
  induction ts generalizing index stack output with
  | nil =>
    obtain ⟨-, rfl⟩ := Prod.mk.inj (Except.ok.inj h)
    exact hstack
  | cons t ts ih =>
    obtain ⟨first, between, rest, hstep, hrun, -⟩ := exists_of_run_cons h
    exact ih hrun (isChain_of_steps (steps_of_step hstep) hstack)

end

/-- The stacks that the conversion of tokens reaches: those between two tokens, and what is left of
them while entries leave one by one, be it for the next token or at the end. -/
inductive Reached (strictness : Strictness) (ts : List Token) : List Pending → Prop
  | between {before after output : List Token} {stack : List Pending} (hts : ts = before ++ after)
    (hrun : run strictness.parentheses 0 [] before = .ok (output, stack)) :
    Reached strictness ts stack
  | pop {p : Pending} {stack : List Pending} (h : Reached strictness ts (p :: stack)) :
    Reached strictness ts stack

theorem Reached.isChain {strictness : Strictness} {ts : List Token} {stack : List Pending}
    (h : Reached strictness ts stack) : stack.IsChain Pending.RestsOn := by
  induction h with
  | between hts hrun => exact isChain_of_run hrun List.isChain_nil
  | pop h ih => exact ih.tail

/-! ### The shape of a stack -/

/-- The operator that waits, if it is one. -/
def Pending.operator? : Pending → Option Operator
  | operator op => some op
  | _ => none

/-- The shape of a stack, its top first. -/
structure Layered (stack : List Pending) : Prop where
  /-- Directly above a function name there is only an opening parenthesis. -/
  isParen_above : ∀ {above below : List Pending} {upper : Pending} {name : String},
    stack = above ++ upper :: .function name :: below → upper.isParen = true
  /-- An operator directly above another one binds tighter, or both are powers. -/
  precedence_lt : ∀ {above below : List Pending} {upper lower : Operator},
    stack = above ++ .operator upper :: .operator lower :: below →
      lower.precedence < upper.precedence ∨ lower = .pow ∧ upper = .pow
  /-- A function name is on top, or directly under an opening parenthesis. -/
  function_top : ∀ {above below : List Pending} {name : String},
    stack = above ++ .function name :: below →
      above = [] ∨ ∃ front index, above = front ++ [.paren index]
  /-- No function name is directly above another one. -/
  functions_apart : ∀ {above below : List Pending} {upper lower : String},
    stack ≠ above ++ .function upper :: .function lower :: below
  /-- In a part without parentheses, such as the one between a parenthesis and the next one, all
  operators that are no powers bind tighter than those below them. -/
  pairwise_precedence : ∀ {above between below : List Pending},
    stack = above ++ between ++ below → (∀ p ∈ between, p.isParen = false) →
      ((between.filterMap Pending.operator?).filter (· ≠ .pow)).Pairwise
        fun upper lower => lower.precedence < upper.precedence

section

variable {stack : List Pending}

theorem restsOn_of_isChain {above below : List Pending} {upper lower : Pending}
    (h : (above ++ upper :: lower :: below).IsChain Pending.RestsOn) :
    Pending.RestsOn upper lower :=
  (List.isChain_append_cons_cons.1 h).2.1

/-- Below the top of a part without parentheses there are only operators, and an operator on top
may wait directly above each of them. -/
theorem exists_operator_of_mem {top : Pending} {rest : List Pending}
    (h : (top :: rest).IsChain Pending.RestsOn) (hfree : ∀ p ∈ top :: rest, p.isParen = false) :
    ∀ entry ∈ rest, ∃ p, entry = .operator p ∧ ∀ q, top = .operator q → Outranks q p := by
  induction rest generalizing top with
  | nil => exact nofun
  | cons next rest ih =>
    obtain ⟨hnext, hrest⟩ := List.isChain_cons_cons.1 h
    obtain ⟨htop, hfree'⟩ := List.forall_mem_cons.1 hfree
    -- The next entry is neither a parenthesis nor a function name, which would bear one.
    obtain ⟨p, rfl⟩ : ∃ p, next = .operator p := by
      cases next with
      | operator p => exact ⟨p, rfl⟩
      | function name => exact nomatch htop.symm.trans (hnext.isParen rfl)
      | paren index => exact nomatch hfree' _ List.mem_cons_self
    intro entry hentry
    rcases List.mem_cons.1 hentry with rfl | hentry
    · exact ⟨p, rfl, fun q hq => hnext.outranks rfl hq⟩
    · obtain ⟨r, rfl, hr⟩ := ih hrest hfree' entry hentry
      exact ⟨r, rfl, fun q hq => (hnext.outranks rfl hq).trans (hr p rfl)⟩

/-- In a part without parentheses, operators that are no powers bind tighter than those below. -/
theorem pairwise_precedence_of_isChain {between : List Pending}
    (h : between.IsChain Pending.RestsOn) (hfree : ∀ p ∈ between, p.isParen = false) :
    ((between.filterMap Pending.operator?).filter (· ≠ .pow)).Pairwise
      fun upper lower => lower.precedence < upper.precedence := by
  induction between with
  | nil => exact .nil
  | cons top rest ih =>
    have hrest := ih h.tail (List.forall_mem_cons.1 hfree).2
    cases top with
    | function name => exact hrest
    | paren index => exact hrest
    | operator q =>
      have hcons : (Pending.operator q :: rest).filterMap Pending.operator? =
          q :: rest.filterMap Pending.operator? := rfl
      rw [hcons]
      -- A power is left out, and any other operator outranks all operators below it.
      by_cases hq : q = .pow
      · rwa [List.filter_cons_of_neg (by simp [hq])]
      · rw [List.filter_cons_of_pos (by simp [hq])]
        refine List.pairwise_cons.2 ⟨fun p hp => ?_, hrest⟩
        obtain ⟨entry, hentry, hoperator⟩ := List.mem_filterMap.1 (List.mem_of_mem_filter hp)
        obtain ⟨p', rfl, hp'⟩ := exists_operator_of_mem h hfree entry hentry
        obtain rfl : p' = p := Option.some.inj hoperator
        exact (hp' q rfl).resolve_right fun hpow => hq hpow.2

/-- A stack that is in order has the shape. -/
theorem layered_of_isChain (h : stack.IsChain Pending.RestsOn) : Layered stack where
  isParen_above := by
    rintro above below upper name rfl
    exact (restsOn_of_isChain h).isParen rfl
  precedence_lt := by
    rintro above below upper lower rfl
    exact (restsOn_of_isChain h).outranks rfl rfl
  function_top := by
    rintro above below name rfl
    rcases List.eq_nil_or_concat above with rfl | ⟨front, upper, rfl⟩
    · exact .inl rfl
    -- What is directly above can only be a parenthesis.
    · rw [List.concat_eq_append, List.append_assoc, List.singleton_append] at h
      cases upper with
      | paren index => exact .inr ⟨front, index, List.concat_eq_append⟩
      | operator op => exact nomatch (restsOn_of_isChain h).isParen rfl
      | function other => exact nomatch (restsOn_of_isChain h).isParen rfl
  functions_apart := by
    rintro above below upper lower rfl
    -- The lower of two function names would bear the upper one.
    exact nomatch (restsOn_of_isChain h).isParen rfl
  pairwise_precedence := by
    rintro above between below rfl hfree
    exact pairwise_precedence_of_isChain h.left_of_append.right_of_append hfree

end

/-- Whatever the tokens are and however strict the setting is, every stack that is reached has this
shape. -/
theorem layered_of_reached {strictness : Strictness} {ts : List Token} {stack : List Pending}
    (h : Reached strictness ts stack) : Layered stack :=
  layered_of_isChain h.isChain

open Token Punct in
/-- In `1 < 2 + 3 * 4 ^ 5 ^ MAX(6 - (SQRT`, a function name waits on top and another one under a
parenthesis, above two powers. When the text ends, the upper function name is the first to leave. -/
theorem layered_of_reached_open_calls :
    Reached .lenient
      [number 1, operator .less, number 2, operator .add, number 3, operator .mul, number 4,
        operator .pow, number 5, operator .pow, function "MAX", punct leftParen, number 6,
        operator .sub, punct leftParen, function "SQRT"]
      [.paren 14, .operator .sub, .paren 11, .function "MAX", .operator .pow, .operator .pow,
        .operator .mul, .operator .add, .operator .less] ∧
    Layered
      [.paren 14, .operator .sub, .paren 11, .function "MAX", .operator .pow, .operator .pow,
        .operator .mul, .operator .add, .operator .less] := by
  have hreached : Reached .lenient
      [number 1, operator .less, number 2, operator .add, number 3, operator .mul, number 4,
        operator .pow, number 5, operator .pow, function "MAX", punct leftParen, number 6,
        operator .sub, punct leftParen, function "SQRT"]
      [.paren 14, .operator .sub, .paren 11, .function "MAX", .operator .pow, .operator .pow,
        .operator .mul, .operator .add, .operator .less] :=
    .pop (.between (List.append_nil _).symm rfl)
  exact ⟨hreached, layered_of_reached hreached⟩

end Calculator.Postfix
