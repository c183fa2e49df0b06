import Calculator.Proofs.Faults
import Calculator.Proofs.WriteLog
import Mathlib.Data.List.Perm.Basic

/-!
# The order of operands

However malformed a sequence of tokens is, if it is accepted then its postfix order has the same
tokens without the punctuation, and no operand is overtaken: operators and function names move to
the right of operands and never to the left of one.

Equal tokens cannot be told apart in the output, so the proofs give every token its position in the
input and follow the pairs through the stack. What waits on the stack is no operand and was read
before, so only the order of the output matters.

## Key results

- `KeepsOperands.filter_isOperand_eq`: operands that are not overtaken stay in the same order
- `Postfix.Steps.exists_numbered`, `Postfix.exists_numbered_of_run`: tokens and their positions,
  through a step and through a run
- `calculate_ne_undefinedOperator`: punctuation never comes to an evaluation
- `ofInfix_operand_order`: all of it about any sequence of tokens that is accepted
-/

namespace List

/-- A permutation of images is the image of a permutation. -/
theorem Perm.exists_map_eq {α β : Type} {f : α → β} {l : List α} {images : List β}
    (h : images.Perm (l.map f)) : ∃ l' : List α, l'.map f = images ∧ l'.Perm l := by
  have hcomp : (fun xs ys => xs.Perm (ys.map f)) images l := h
  rw [← eq_map_comp_perm f] at hcomp
  obtain ⟨l', himages, hperm⟩ := hcomp
  exact ⟨l', himages.symm, hperm⟩

end List

namespace Calculator

/-! ### Tokens with their positions -/

/-- Whether tokens with their positions are in an order in which no operand is overtaken: all that
comes before an operand has stood before it. So operands are in the order of their positions, and
an operator or function name comes after all operands that have stood before it. -/
def KeepsOperands (numbered : List (Token × Nat)) : Prop :=
  numbered.Pairwise fun a b => b.1.isOperand = true → a.2 < b.2

namespace KeepsOperands

variable {xs ys : List (Token × Nat)}

/-- Where there are no operands none is overtaken. -/
theorem of_not_isOperand (h : ∀ a ∈ xs, a.1.isOperand = false) : KeepsOperands xs :=
  List.pairwise_of_forall_mem_list fun _ _ b hb hoperand =>
    absurd ((h b hb).symm.trans hoperand) Bool.false_ne_true

/-- Two parts keep their operands if nothing in the first was read after an operand of the
second. -/
theorem append (hxs : KeepsOperands xs) (hys : KeepsOperands ys)
    (h : ∀ a ∈ xs, ∀ b ∈ ys, b.1.isOperand = true → a.2 < b.2) : KeepsOperands (xs ++ ys) :=
  List.pairwise_append.2 ⟨hxs, hys, h⟩

/-- Operands that are not overtaken are in the same order as before. -/
theorem filter_isOperand_eq {ts : List Token} (hkeeps : KeepsOperands xs)
    (hperm : xs.Perm (ts.zipIdx.filter (!·.1.isPunct))) :
    (xs.map Prod.fst).filter Token.isOperand = ts.filter Token.isOperand := by
  have hnumbers : ts.zipIdx.Pairwise fun a b => a.2 < b.2 := by
    refine List.pairwise_map.1 ?_
    rw [List.zipIdx_map_snd]
    exact List.pairwise_lt_range'
  -- On both sides the operands are in the order of their positions.
  have hleft : (xs.filter (Token.isOperand ∘ Prod.fst)).Pairwise fun a b => a.2 < b.2 :=
    List.pairwise_filter.2 (hkeeps.imp fun h _ hb => h hb)
  have hright : (ts.zipIdx.filter (Token.isOperand ∘ Prod.fst)).Pairwise fun a b => a.2 < b.2 :=
    hnumbers.filter _
  have hsame : (xs.filter (Token.isOperand ∘ Prod.fst)).Perm
      (ts.zipIdx.filter (Token.isOperand ∘ Prod.fst)) := by
    have hfilter := hperm.filter (Token.isOperand ∘ Prod.fst)
    rw [List.filter_filter] at hfilter
    -- No punctuation mark is an operand, so the first filter takes nothing away.
    have hoperand : (fun a : Token × Nat => (Token.isOperand ∘ Prod.fst) a && !a.1.isPunct) =
        Token.isOperand ∘ Prod.fst := by
      funext ⟨t, position⟩
      cases t <;> rfl
    rwa [hoperand] at hfilter
  -- There is only one way to put the same operands into this order.
  have heq := hsame.eq_of_pairwise
    (fun a b _ _ hab hba => absurd (Nat.lt_trans hab hba) (Nat.lt_irrefl a.2)) hleft hright
  rw [List.filter_map, heq, ← List.filter_map, List.zipIdx_map_fst]

end KeepsOperands

/-! ### The conversion -/

namespace Postfix

/-- No operand waits. -/
theorem isOperand_of_mem_emit {stack : List Pending} {t : Token} (h : t ∈ emit stack) :
    t.isOperand = false := by
  obtain ⟨p, -, hp⟩ := List.mem_filterMap.1 h
  cases p with
  | operator op => cases hp; rfl
  | function name => cases hp; rfl
  | paren index => cases hp

/-- No operand is among entries with positions that wait. -/
theorem isOperand_of_map_eq_emit {stack : List Pending} {waiting : List (Token × Nat)}
    (h : waiting.map Prod.fst = emit stack) : ∀ w ∈ waiting, w.1.isOperand = false := fun _ hw =>
  isOperand_of_mem_emit (h ▸ List.mem_map_of_mem hw)

section

variable {strict : Bool} {index : Nat} {stack stack' : List Pending} {output : List Token}
  {waiting : List (Token × Nat)}

/-- A token comes out at once and alone, or what comes out has waited. -/
theorem Steps.output_cases {token : Token} (h : Steps strict index stack token output stack') :
    output = [token] ∨ ∃ entries, output = emit entries := by
  cases h with
  | operand => exact .inl rfl
  | leftParen => exact .inr ⟨[], rfl⟩
  | function | operator | comma | rightParen | stray => exact .inr ⟨_, rfl⟩

/-- What a token does to tokens with their positions: those that come out and those that wait
afterwards are those that have waited, and the token itself unless it is punctuation. -/
theorem Steps.exists_numbered {token : Token} (h : Steps strict index stack token output stack')
    (hwaiting : waiting.map Prod.fst = emit stack) :
    ∃ first between, first.map Prod.fst = output ∧ between.map Prod.fst = emit stack' ∧
      (first ++ between).Perm (waiting ++ [(token, index)].filter (!·.1.isPunct)) ∧
      KeepsOperands first := by
  have hperm : (output ++ emit stack').Perm
      ((waiting ++ [(token, index)].filter (!·.1.isPunct)).map Prod.fst) := by
    have htoken : [token].filter (!·.isPunct) =
        ([(token, index)].filter (!·.1.isPunct)).map Prod.fst :=
      List.filter_map (f := Prod.fst) (l := [(token, index)])
    rw [List.map_append, hwaiting, ← htoken]
    exact h.perm
  -- The positions are carried along by the permutation.
  obtain ⟨all, hall, hperm⟩ := hperm.exists_map_eq
  obtain ⟨first, between, rfl, hfirst, hbetween⟩ := List.map_eq_append_iff.1 hall
  refine ⟨first, between, hfirst, hbetween, hperm, ?_⟩
  rcases h.output_cases with rfl | ⟨entries, rfl⟩
  · -- A single token overtakes nothing.
    obtain ⟨a, rfl, -⟩ := List.map_eq_singleton_iff.1 hfirst
    exact List.pairwise_singleton _ a
  · -- What comes off the stack has waited, and no operand does.
    exact .of_not_isOperand (isOperand_of_map_eq_emit hfirst)

/-- What a run does to tokens with their positions: those that come out and those that wait
afterwards are those that have waited, and the tokens of the run that are no punctuation. In the
output no operand is overtaken. -/
theorem exists_numbered_of_run {ts : List Token}
    (h : run strict index stack ts = .ok (output, stack'))
    (hwaiting : waiting.map Prod.fst = emit stack) (hbefore : ∀ w ∈ waiting, w.2 < index) :
    ∃ numbered rest, numbered.map Prod.fst = output ∧ rest.map Prod.fst = emit stack' ∧
      (numbered ++ rest).Perm (waiting ++ (ts.zipIdx index).filter (!·.1.isPunct)) ∧
      KeepsOperands numbered := by
  induction ts generalizing index stack output waiting with
  | nil =>
    obtain ⟨rfl, rfl⟩ := Prod.mk.inj (Except.ok.inj h)
    refine ⟨[], waiting, rfl, hwaiting, ?_, .nil⟩
    simp
  | cons t ts ih =>
    obtain ⟨output₁, stack₁, output₂, hstep, hrun, rfl⟩ := exists_of_run_cons h
    obtain ⟨first, between, hfirst, hbetween, hperm₁, hkeeps₁⟩ :=
      (steps_of_step hstep).exists_numbered hwaiting
    -- All that has been read so far has at most the position of `t`.
    have hle : ∀ a ∈ first ++ between, a.2 ≤ index := by
      intro a ha
      rcases List.mem_append.1 (hperm₁.mem_iff.1 ha) with hwaited | ht
      · exact Nat.le_of_lt (hbefore a hwaited)
      · obtain rfl := List.mem_singleton.1 (List.mem_filter.1 ht).1
        exact Nat.le_refl index
    have hbefore₁ : ∀ w ∈ between, w.2 < index + 1 := fun w hw =>
      Nat.lt_succ_of_le (hle w (List.mem_append_right first hw))
    obtain ⟨numbered, rest, hnumbered, hrest, hperm₂, hkeeps₂⟩ := ih hrun hbetween hbefore₁
    refine ⟨first ++ numbered, rest, ?_, hrest, ?_, hkeeps₁.append hkeeps₂ ?_⟩
    · rw [List.map_append, hfirst, hnumbered]
    · -- The step exchanges `waiting` and `t` for `first` and `between`; the run goes on from there.
      have hone := hperm₁.append_right ((ts.zipIdx (index + 1)).filter (!·.1.isPunct))
      rw [List.append_assoc, List.append_assoc, ← List.filter_append, List.singleton_append,
        ← List.zipIdx_cons] at hone
      rw [List.append_assoc]
      exact (hperm₂.append_left first).trans hone
    · intro a ha b hb hoperand
      have ha' := hle a (List.mem_append_left between ha)
      -- An operand that comes out later has not waited, so it was read after `t`.
      rcases List.mem_append.1 (hperm₂.mem_iff.1 (List.mem_append_left rest hb)) with hwaited | hts
      · rw [isOperand_of_map_eq_emit hbetween b hwaited] at hoperand
        cases hoperand
      · have hb' : index + 1 ≤ b.2 := List.le_snd_of_mem_zipIdx (List.mem_filter.1 hts).1
        omega

end

/-- The postfix order has the tokens of the input that are no punctuation, and no operand is
overtaken. -/
theorem exists_numbered_of_ofInfix {strictness : Strictness} {ts rpn : List Token}
    (h : ofInfix strictness ts = .ok rpn) :
    ∃ numbered : List (Token × Nat), numbered.map Prod.fst = rpn ∧
      numbered.Perm (ts.zipIdx.filter (!·.1.isPunct)) ∧ KeepsOperands numbered := by
  obtain ⟨output, stack, hrun, -, rfl⟩ := exists_of_ofInfix h
  -- Nothing waits at the start, so nothing was read before.
  have hempty : ([] : List (Token × Nat)).map Prod.fst = emit [] := rfl
  obtain ⟨numbered, rest, hnumbered, hrest, hperm, hkeeps⟩ :=
    exists_numbered_of_run hrun hempty nofun
  -- What waits at the end comes out last, and there is no operand in it.
  have hnone := isOperand_of_map_eq_emit hrest
  refine ⟨numbered ++ rest, ?_, hperm, hkeeps.append (.of_not_isOperand hnone) ?_⟩
  · rw [List.map_append, hnumbered, hrest]
  · intro a _ b hb hoperand
    rw [hnone b hb] at hoperand
    cases hoperand

/-- No punctuation is left in the postfix order. -/
theorem isPunct_of_mem_ofInfix {strictness : Strictness} {ts rpn : List Token} {t : Token}
    (h : ofInfix strictness ts = .ok rpn) (ht : t ∈ rpn) : t.isPunct = false := by
  have hmem := (List.mem_filter.1 ((perm_of_ofInfix h).mem_iff.1 ht)).2
  simpa using hmem

end Postfix

/-! ### Calculations -/

/-- No calculation fails for an operator that is not defined. -/
theorem calculate_ne_undefinedOperator (strictness : Strictness) (tracing : Bool) (text : String)
    (env : Environment) (mark : Punct) :
    (calculate strictness tracing text env).result ≠ .error (.eval (.undefinedOperator mark)) := by
  intro h
  have hleaves := leaves_calculate h
  generalize (calculate strictness tracing text env).env = left at hleaves
  generalize Event.writes (calculate strictness tracing text env).events = sets at hleaves
  cases hleaves with
  | token hrpn hbefore hfail =>
    -- Only a punctuation mark fails in this way, and the postfix order has none.
    cases Machine.faults_of_step hfail with
    | punct =>
      obtain ⟨tokens, -, hconvert⟩ := toPostfix_eq_ok_iff.1 hrpn
      have hmark := Postfix.isPunct_of_mem_ofInfix hconvert
        (List.mem_append_right _ List.mem_cons_self)
      cases hmark
  | value hrpn hall hvalue =>
    -- The end of an evaluation has errors of its own.
    unfold Machine.value at hvalue
    split at hvalue <;> exact nomatch hvalue

/-- If tokens are accepted, in whatever order they are and under whatever settings, their postfix
order has each of them once, except punctuation. Its operands are in the order of the input, and
every operator and function name comes after all operands that stand before it in the input. So
there is nothing in the postfix order of a text that an evaluation does not know as an operator. -/
theorem ofInfix_operand_order :
    (∀ (strictness : Strictness) (ts rpn : List Token), Postfix.ofInfix strictness ts = .ok rpn →
      rpn.Perm (ts.filter (!·.isPunct)) ∧
      rpn.filter Token.isOperand = ts.filter Token.isOperand ∧
      ∃ numbered : List (Token × Nat), numbered.map Prod.fst = rpn ∧
        numbered.Perm (ts.zipIdx.filter (!·.1.isPunct)) ∧ KeepsOperands numbered) ∧
    ∀ (strictness : Strictness) (tracing : Bool) (text : String) (env : Environment)
      (mark : Punct),
      (calculate strictness tracing text env).result ≠
        .error (.eval (.undefinedOperator mark)) := by
  refine ⟨fun strictness ts rpn h => ?_, calculate_ne_undefinedOperator⟩
  obtain ⟨numbered, rfl, hperm, hkeeps⟩ := Postfix.exists_numbered_of_ofInfix h
  exact ⟨Postfix.perm_of_ofInfix h, hkeeps.filter_isOperand_eq hperm, numbered, rfl, hperm, hkeeps⟩

open Token Punct Operator in
/-- Operators without operands, a comma and a parenthesis without partners, and a function name
behind its argument. -/
theorem ofInfix_operand_order_malformed :
    Postfix.ofInfix .lenient [operator mul, number 1, punct comma, operator add, function "MAX",
        operator add, reference "A", punct rightParen, key "B"] =
      .ok [number 1, operator mul, function "MAX", operator add, reference "A", operator add,
        key "B"] ∧
    ∃ numbered, numbered.map Prod.fst = [number 1, operator mul, function "MAX", operator add,
        reference "A", operator add, key "B"] ∧ KeepsOperands numbered := by
  have h : Postfix.ofInfix .lenient [operator mul, number 1, punct comma, operator add,
      function "MAX", operator add, reference "A", punct rightParen, key "B"] =
      .ok [number 1, operator mul, function "MAX", operator add, reference "A", operator add,
        key "B"] := by
    decide
  obtain ⟨-, -, numbered, hnumbered, -, hkeeps⟩ := ofInfix_operand_order.1 _ _ _ h
  exact ⟨h, numbered, hnumbered, hkeeps⟩

end Calculator
