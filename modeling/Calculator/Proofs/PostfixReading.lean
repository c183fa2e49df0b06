import Calculator.Proofs.MachineCorrect

/-!
# Reading postfix order back into trees

`Expr.readStep` reads one token in postfix order on top of the trees that the tokens before it
make up: an operand is a tree of its own, and an operator or function name takes as many trees as
it has operands. Reading inverts writing in both directions, so a saturated tree is determined by
its postorder.

The stack machine accepts no more than that. Wherever it gets through a token, the token can be
read, and its stack is as high as there are trees.

## Key results

- `readAll_postorder`: reading the postorder of a saturated tree gives this tree
- `readAll_sound`: what is read is saturated and has the tokens it was read from
- `postorder_injective`: different saturated trees have different postorders
- `readAll_of_run`: what the machine runs through can be read
- `evaluate_ok_iff`: tokens have the values of the saturated trees that they are the postorder of
- `existsUnique_tree_of_evaluate_ok`: the one tree behind tokens that have a value
-/

namespace Calculator

namespace Expr

/-- Read one more token, on top of the trees read so far. The last of them comes first. -/
def readStep (trees : List Expr) : Token → Option (List Expr)
  | .number x => some (.number x :: trees)
  | .reference name => some (.reference name :: trees)
  | .key name => some (.key name :: trees)
  | .operator op =>
    match trees with
    | right :: left :: below => some (.binary op left right :: below)
    | _ => none
  | .function name =>
    match Builtin.named? name with
    | some b =>
      if trees.length < b.arity then none
      else some (.call name (trees.take b.arity).reverse :: trees.drop b.arity)
    | none => none
  | .punct _ => none

/-- Read tokens in postfix order on top of the trees read so far. -/
def readAll (trees : List Expr) (ts : List Token) : Option (List Expr) := ts.foldlM readStep trees

@[simp] theorem readAll_nil (trees : List Expr) : readAll trees [] = some trees := rfl

theorem readAll_cons (trees : List Expr) (t : Token) (ts : List Token) :
    readAll trees (t :: ts) = (readStep trees t).bind (readAll · ts) := rfl

theorem readAll_append (trees : List Expr) (ts us : List Token) :
    readAll trees (ts ++ us) = (readAll trees ts).bind (readAll · us) := by
  simp only [readAll, List.foldlM_append]
  rfl

/-! ### Reading what was written -/

/-- A function name takes its arguments off the trees, in the order of the call. -/
theorem readStep_function {name : String} {b : Builtin} {arguments : List Expr}
    (trees : List Expr) (hname : Builtin.named? name = some b)
    (hlength : arguments.length = b.arity) :
    readStep (arguments.reverse ++ trees) (.function name) =
      some (.call name arguments :: trees) := by
  have henough : ¬ (arguments.reverse ++ trees).length < b.arity := by
    rw [List.length_append, List.length_reverse]; omega
  have hlength' : arguments.reverse.length = b.arity := by rw [List.length_reverse, hlength]
  simp only [readStep, hname, if_neg henough]
  -- What the name takes are exactly the arguments, in reverse.
  rw [List.take_left' hlength', List.drop_left' hlength', List.reverse_reverse]

/-- Reading the postorders of trees gives the trees if it does so for each of them. -/
theorem readAll_postorderAll {es : List Expr}
    (h : ∀ e ∈ es, ∀ trees, readAll trees e.postorder = some (e :: trees)) (trees : List Expr) :
    readAll trees (postorderAll es) = some (es.reverse ++ trees) := by
  induction es generalizing trees with
  | nil => rfl
  | cons e rest ih =>
    -- The other trees are read on top of the first.
    have hrest := ih (fun f hf => h f (List.mem_cons_of_mem e hf)) (e :: trees)
    rw [postorderAll, readAll_append, h e (List.mem_cons_self ..) trees, Option.bind_some, hrest,
      List.reverse_cons, List.append_assoc, List.singleton_append]

/-- Reading the postorder of a saturated tree gives this tree. -/
theorem readAll_postorder {e : Expr} (h : e.Saturated) (trees : List Expr) :
    readAll trees e.postorder = some (e :: trees) := by
  induction e using Expr.induct generalizing trees with
  | number x => rfl
  | reference name => rfl
  | key name => rfl
  | binary op left right ihleft ihright =>
    obtain ⟨hleft, hright⟩ := saturated_binary_iff.1 h
    rw [postorder, readAll_append, readAll_append, ihleft hleft, Option.bind_some, ihright hright]
    rfl
  | call name arguments ih =>
    obtain ⟨hargs, b, hname, hlength⟩ := saturated_call_iff.1 h
    -- The arguments are read first and lie in reverse order when the name comes.
    rw [postorder, readAll_append, readAll_postorderAll (fun e he => ih e he (hargs e he)),
      Option.bind_some, readAll_cons, readStep_function trees hname hlength]
    rfl

/-- Different saturated trees have different postorders. -/
theorem postorder_injective {e f : Expr} (he : e.Saturated) (hf : f.Saturated)
    (h : e.postorder = f.postorder) : e = f := by
  -- Reading takes one postorder to one tree.
  have hread := readAll_postorder he []
  rw [h, readAll_postorder hf [], Option.some.injEq, List.cons.injEq] at hread
  exact hread.1.symm

/-! ### Writing what was read -/

/-- Reading a token keeps the trees saturated and adds the token to their postorder. -/
theorem readStep_sound {trees trees' : List Expr} {t : Token} (h : readStep trees t = some trees')
    (hsat : ∀ e ∈ trees, e.Saturated) :
    (∀ e ∈ trees', e.Saturated) ∧
      postorderAll trees'.reverse = postorderAll trees.reverse ++ [t] := by
  cases t with
  | number x =>
    obtain rfl := Option.some.inj h
    exact ⟨List.forall_mem_cons.2 ⟨saturated_of_calls_eq_nil rfl, hsat⟩, by simp [postorder]⟩
  | reference name =>
    obtain rfl := Option.some.inj h
    exact ⟨List.forall_mem_cons.2 ⟨saturated_of_calls_eq_nil rfl, hsat⟩, by simp [postorder]⟩
  | key name =>
    obtain rfl := Option.some.inj h
    exact ⟨List.forall_mem_cons.2 ⟨saturated_of_calls_eq_nil rfl, hsat⟩, by simp [postorder]⟩
  | operator op =>
    simp only [readStep] at h
    split at h
    · rename_i right left below
      obtain rfl := Option.some.inj h
      simp only [List.forall_mem_cons] at hsat
      obtain ⟨hright, hleft, hbelow⟩ := hsat
      refine ⟨List.forall_mem_cons.2 ⟨saturated_binary_iff.2 ⟨hleft, hright⟩, hbelow⟩, ?_⟩
      -- The two trees lie side by side, so their tokens already stand one behind the other.
      simp [postorder, postorderAll]
    · simp at h
  | function name =>
    simp only [readStep] at h
    split at h
    · rename_i b hname
      split at h
      · simp at h
      · rename_i henough
        obtain rfl := Option.some.inj h
        -- The guard leaves enough trees for a saturated call.
        have hlength : (trees.take b.arity).reverse.length = b.arity := by
          rw [List.length_reverse, List.length_take]; omega
        have hargs : ∀ e ∈ (trees.take b.arity).reverse, e.Saturated := fun e he =>
          hsat e (List.mem_of_mem_take (List.mem_reverse.1 he))
        have hcall := saturated_call_iff.2 ⟨hargs, b, hname, hlength⟩
        refine ⟨List.forall_mem_cons.2 ⟨hcall, fun e he => hsat e (List.mem_of_mem_drop he)⟩, ?_⟩
        -- The arguments and the trees below them make up the trees before the call.
        have hsplit : trees.reverse =
            (trees.drop b.arity).reverse ++ (trees.take b.arity).reverse := by
          rw [← List.reverse_append, List.take_append_drop]
        rw [hsplit, List.reverse_cons, postorderAll_append, postorderAll_append,
          postorderAll_singleton, postorder, List.append_assoc]
    · simp at h
  | punct mark => simp [readStep] at h

/-- Trees that were read from tokens are saturated and have these tokens as their postorder. -/
theorem readAll_sound {trees trees' : List Expr} {ts : List Token}
    (h : readAll trees ts = some trees') (hsat : ∀ e ∈ trees, e.Saturated) :
    (∀ e ∈ trees', e.Saturated) ∧
      postorderAll trees'.reverse = postorderAll trees.reverse ++ ts := by
  induction ts generalizing trees with
  | nil =>
    obtain rfl := Option.some.inj h
    exact ⟨hsat, (List.append_nil _).symm⟩
  | cons t ts ih =>
    rw [readAll_cons] at h
    obtain ⟨between, hstep, hrest⟩ := Option.bind_eq_some_iff.1 h
    obtain ⟨hsat₁, hpost₁⟩ := readStep_sound hstep hsat
    obtain ⟨hsat₂, hpost₂⟩ := ih hrest hsat₁
    refine ⟨hsat₂, ?_⟩
    rw [hpost₂, hpost₁, List.append_assoc, List.singleton_append]

end Expr

/-! ### What the machine accepts -/

namespace Machine

/-- A token that the machine gets through can be read, where there is a tree for each value. -/
theorem readStep_of_step {m m' : Machine} {t : Token} {writes : List Event} {trees : List Expr}
    (h : m.step t = .ok (m', writes)) (hlength : trees.length = m.stack.length) :
    ∃ trees', Expr.readStep trees t = some trees' ∧ trees'.length = m'.stack.length := by
  cases steps_of_step h with
  | number x => exact ⟨_, rfl, congrArg (· + 1) hlength⟩
  | key name => exact ⟨_, rfl, congrArg (· + 1) hlength⟩
  | reference hget => exact ⟨_, rfl, congrArg (· + 1) hlength⟩
  | operator hstack happly =>
    -- Two values on the stack stand for two trees.
    rw [hstack] at hlength
    match trees with
    | right :: left :: rest => exact ⟨_, rfl, Nat.succ.inj hlength⟩
    | [_] => exact nomatch hlength
    | [] => exact nomatch hlength
  | function hname harity hcall =>
    -- The machine and the reader check the same arity against the same height.
    simp only [Expr.readStep, hname, hlength, if_neg (Nat.not_lt.2 harity)]
    refine ⟨_, rfl, ?_⟩
    rw [record_stack, List.length_cons, List.length_cons, List.length_drop, List.length_drop,
      hlength]

/-- Tokens that the machine runs through can be read, where there is a tree for each value. -/
theorem readAll_of_run {m final : Machine} {ts : List Token} {events : List Event}
    {trees : List Expr} (h : m.run ts = (final, events, none))
    (hlength : trees.length = m.stack.length) :
    ∃ trees', Expr.readAll trees ts = some trees' ∧ trees'.length = final.stack.length := by
  induction ts generalizing m events trees with
  | nil =>
    simp only [run, Prod.mk.injEq] at h
    obtain ⟨rfl, -, -⟩ := h
    exact ⟨trees, rfl, hlength⟩
  | cons t ts ih =>
    -- Token by token, there stay as many trees as values.
    obtain ⟨between, writes, rest, hstep, hrun, -⟩ := exists_of_run_cons h
    obtain ⟨trees₁, hread, hlength₁⟩ := readStep_of_step hstep hlength
    obtain ⟨trees₂, hreads, hlength₂⟩ := ih hrun hlength₁
    exact ⟨trees₂, by rw [Expr.readAll_cons, hread, Option.bind_some, hreads], hlength₂⟩

/-- Tokens have a value if they are the postorder of a saturated tree that has it. -/
theorem evaluate_ok_iff {rpn : List Token} {env env' : Environment} {v : Value} :
    evaluate rpn env = (.ok v, env') ↔
      ∃ e : Expr, e.Saturated ∧ e.postorder = rpn ∧ e.eval env = (.ok v, env') := by
  constructor
  · intro h
    obtain ⟨final, events, hrun, hstack, -⟩ := exists_run_of_evaluate_ok h
    have hempty : ([] : List Expr).length = (start env false).stack.length := rfl
    obtain ⟨trees, hread, hlength⟩ := readAll_of_run hrun hempty
    obtain ⟨hsat, hpost⟩ := Expr.readAll_sound hread (fun _ he => nomatch he)
    -- The run that gave `v` reads off as many trees as it left values: one.
    rw [hstack] at hlength
    obtain ⟨e, rfl⟩ := List.length_eq_one_iff.1 hlength
    have he : e.Saturated := hsat e (List.mem_singleton_self e)
    have hrpn : e.postorder = rpn := by simpa [Expr.postorderAll] using hpost
    refine ⟨e, he, hrpn, ?_⟩
    rw [← h, ← hrpn]
    exact (evaluate_of_computes (computes_postorder (start env false) he.2)).symm
  · -- A saturated tree is computed from its postorder, whatever is below.
    rintro ⟨e, he, rfl, heval⟩
    rw [← heval]
    exact evaluate_of_computes (computes_postorder (start env false) he.2)

/-- Only the postorders of saturated trees have a value. Whatever tokens are evaluated to a value,
they are the postorder of exactly one saturated tree, which evaluates to the same value and leads
to the same environment. -/
theorem existsUnique_tree_of_evaluate_ok {rpn : List Token} {env env' : Environment} {v : Value}
    (h : evaluate rpn env = (.ok v, env')) :
    ∃ e : Expr, (e.Saturated ∧ e.postorder = rpn) ∧
      (∀ f : Expr, f.Saturated ∧ f.postorder = rpn → f = e) ∧ e.eval env = (.ok v, env') := by
  obtain ⟨e, he, hrpn, heval⟩ := evaluate_ok_iff.1 h
  -- Two trees with these tokens would be read from them, and reading has one result.
  exact ⟨e, ⟨he, hrpn⟩, fun f hf => Expr.postorder_injective hf.1 he (hf.2.trans hrpn.symm), heval⟩

open Token in
/-- `IF(#A = #A, SET(#A, 2), SQRT($A))`. -/
theorem existsUnique_tree_comparing_keys :
    ∃ e : Expr,
      (e.Saturated ∧ e.postorder =
        [key "A", key "A", operator .equal, key "A", number 2, function "SET", reference "A",
          function "SQRT", function "IF"]) ∧
      (∀ f : Expr, f.Saturated ∧ f.postorder =
        [key "A", key "A", operator .equal, key "A", number 2, function "SET", reference "A",
          function "SQRT", function "IF"] → f = e) ∧
      e.eval (.ofDefaults .empty) =
        (.ok (.number 2), (Environment.ofDefaults .empty).set "A" (.number 2)) :=
  existsUnique_tree_of_evaluate_ok rfl

end Machine

end Calculator
