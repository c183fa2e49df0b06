import Calculator.Expr

/-!
# Trees and their parts

How what is asked of all calls in a tree is asked of its subtrees, and how the tokens and the
values of several trees follow from those of each.

## Key results

- `fitsArity_call_iff`, `saturated_call_iff`: a call fits if it does and all its arguments do
- `postorderAll_append`: neighbouring sequences of trees
- `length_of_evalAll`: as many values as trees
-/

namespace Calculator.Expr

/-! ### Calls -/

instance (e : Expr) : Decidable e.CallsBuiltins :=
  inferInstanceAs (Decidable (∀ c ∈ e.calls, (Builtin.named? c.1).isSome))

instance (e : Expr) : Decidable e.FitsArity :=
  decidable_of_iff (∀ c ∈ e.calls, ∀ b ∈ Builtin.named? c.1, c.2 = b.arity) Iff.rfl

/-- The calls in several trees are those in each of them. -/
theorem mem_callsAll {c : String × Nat} {es : List Expr} :
    c ∈ callsAll es ↔ ∃ e ∈ es, c ∈ e.calls := by
  induction es with
  | nil => simp [callsAll]
  | cons e rest ih => simp [callsAll, ih]

/-- What holds of all calls in a call holds of the arguments and of the call itself. -/
private theorem forall_mem_calls_call {P : String × Nat → Prop} {function : String}
    {arguments : List Expr} :
    (∀ c ∈ (call function arguments).calls, P c) ↔
      (∀ e ∈ arguments, ∀ c ∈ e.calls, P c) ∧ P (function, arguments.length) := by
  simp only [calls, List.mem_append, List.mem_singleton, mem_callsAll]
  constructor
  · intro h
    exact ⟨fun e he c hc => h c (.inl ⟨e, he, hc⟩), h _ (.inr rfl)⟩
  · rintro ⟨hargs, hcall⟩ c (⟨e, he, hc⟩ | rfl)
    · exact hargs e he c hc
    · exact hcall

private theorem forall_mem_calls_binary {P : String × Nat → Prop} {op : Operator}
    {left right : Expr} :
    (∀ c ∈ (binary op left right).calls, P c) ↔
      (∀ c ∈ left.calls, P c) ∧ ∀ c ∈ right.calls, P c := by
  simp only [calls, List.mem_append]
  exact ⟨fun h => ⟨fun c hc => h c (.inl hc), fun c hc => h c (.inr hc)⟩,
    fun h c hc => hc.elim (h.1 c) (h.2 c)⟩

theorem fitsArity_binary_iff {op : Operator} {left right : Expr} :
    (binary op left right).FitsArity ↔ left.FitsArity ∧ right.FitsArity :=
  forall_mem_calls_binary

/-- An operation calls built-in functions only if its operands do. -/
theorem callsBuiltins_binary_iff {op : Operator} {left right : Expr} :
    (binary op left right).CallsBuiltins ↔ left.CallsBuiltins ∧ right.CallsBuiltins :=
  forall_mem_calls_binary

theorem fitsArity_call_iff {function : String} {arguments : List Expr} :
    (call function arguments).FitsArity ↔
      (∀ e ∈ arguments, e.FitsArity) ∧
        ∀ b, Builtin.named? function = some b → arguments.length = b.arity :=
  forall_mem_calls_call

/-- A call is one of built-in functions only if its own function is one and its arguments call no
others. -/
theorem callsBuiltins_call_iff {function : String} {arguments : List Expr} :
    (call function arguments).CallsBuiltins ↔
      (∀ e ∈ arguments, e.CallsBuiltins) ∧ (Builtin.named? function).isSome :=
  forall_mem_calls_call

/-- Whether every call is one of a built-in function with as many arguments as it takes. -/
def Saturated (e : Expr) : Prop := e.CallsBuiltins ∧ e.FitsArity

instance (e : Expr) : Decidable e.Saturated :=
  inferInstanceAs (Decidable (e.CallsBuiltins ∧ e.FitsArity))

/-- Without calls there is nothing to saturate. -/
theorem saturated_of_calls_eq_nil {e : Expr} (h : e.calls = []) : e.Saturated := by
  simp [Saturated, CallsBuiltins, FitsArity, h]

theorem saturated_binary_iff {op : Operator} {left right : Expr} :
    (binary op left right).Saturated ↔ left.Saturated ∧ right.Saturated := by
  rw [Saturated, callsBuiltins_binary_iff, fitsArity_binary_iff]
  exact and_and_and_comm

/-- A call is saturated if its arguments are and the function takes that many of them. -/
theorem saturated_call_iff {function : String} {arguments : List Expr} :
    (call function arguments).Saturated ↔
      (∀ e ∈ arguments, e.Saturated) ∧
        ∃ b, Builtin.named? function = some b ∧ arguments.length = b.arity := by
  rw [Saturated, callsBuiltins_call_iff, fitsArity_call_iff, Option.isSome_iff_exists]
  constructor
  · rintro ⟨⟨hcalls, b, hb⟩, hfits, hlength⟩
    exact ⟨fun e he => ⟨hcalls e he, hfits e he⟩, b, hb, hlength b hb⟩
  · rintro ⟨hargs, b, hb, hlength⟩
    refine ⟨⟨fun e he => (hargs e he).1, b, hb⟩, fun e he => (hargs e he).2, fun b' hb' => ?_⟩
    -- There is only one function of a name.
    obtain rfl : b = b' := Option.some.inj (hb.symm.trans hb')
    exact hlength

/-! ### Keys -/

/-- Whether a tree is a key. -/
def isKey : Expr → Bool
  | key _ => true
  | _ => false

mutual

/-- Whether keys stand as the first arguments of `SET` and nowhere else. -/
def KeysInPlace : Expr → Prop
  | number _ | reference _ => True
  | key _ => False
  | binary _ left right => left.KeysInPlace ∧ right.KeysInPlace
  | call function arguments =>
    match arguments with
    | [] => True
    | first :: rest =>
      (if function = Builtin.assign.name then first.isKey = true else first.KeysInPlace) ∧
        AllKeysInPlace rest

/-- Whether keys stand in several trees as the first arguments of `SET` and nowhere else. -/
def AllKeysInPlace : List Expr → Prop
  | [] => True
  | e :: rest => e.KeysInPlace ∧ AllKeysInPlace rest

end

/-- A call of `SET` is given a key and a tree with its keys in place. -/
theorem KeysInPlace.of_assign {arguments : List Expr}
    (h : (call Builtin.assign.name arguments).KeysInPlace)
    (hlength : arguments.length = Builtin.assign.arity) :
    ∃ name e, arguments = [key name, e] ∧ e.KeysInPlace := by
  -- With two arguments only the first is exempt from the rule for the others.
  match arguments, hlength, h with
  | [target, e], _, h =>
    simp only [KeysInPlace, AllKeysInPlace, ↓reduceIte] at h
    obtain ⟨htarget, he, -⟩ := h
    -- A target that is no key fails `isKey`.
    cases target with
    | key name => exact ⟨name, e, rfl, he⟩
    | _ => exact nomatch htarget

/-- Any other call is given trees with their keys in place. -/
theorem KeysInPlace.of_not_assign {function : String} {arguments : List Expr}
    (h : (call function arguments).KeysInPlace) (hne : function ≠ Builtin.assign.name) :
    ∀ e ∈ arguments, e.KeysInPlace := by
  -- Below `SET` the first argument is exempt; elsewhere it is one of the arguments.
  have hall : ∀ es, AllKeysInPlace es → ∀ e ∈ es, e.KeysInPlace := by
    intro es
    induction es with
    | nil => exact fun _ _ he => nomatch he
    | cons e rest ih => exact fun ⟨he, hrest⟩ => List.forall_mem_cons.2 ⟨he, ih hrest⟩
  cases arguments with
  | nil => exact fun _ he => nomatch he
  | cons first rest =>
    simp only [KeysInPlace, if_neg hne] at h
    exact List.forall_mem_cons.2 ⟨h.1, hall rest h.2⟩

/-! ### Several trees -/

@[simp] theorem postorderAll_append (es fs : List Expr) :
    postorderAll (es ++ fs) = postorderAll es ++ postorderAll fs := by
  induction es with
  | nil => rfl
  | cons e rest ih => simp only [List.cons_append, postorderAll, ih, List.append_assoc]

@[simp] theorem postorderAll_singleton (e : Expr) : postorderAll [e] = e.postorder := by
  simp only [postorderAll, List.append_nil]

/-- Several trees have as many values as there are trees. -/
theorem length_of_evalAll {es : List Expr} {env env' : Environment} {values : List Value}
    (h : evalAll es env = (.ok values, env')) : values.length = es.length := by
  induction es generalizing env values with
  | nil =>
    simp only [evalAll, Prod.mk.injEq, Except.ok.injEq] at h
    rw [← h.1]; rfl
  | cons e rest ih =>
    simp only [evalAll] at h
    -- With values at the end, neither the first tree nor the others have failed.
    split at h
    · simp at h
    · split at h
      · simp at h
      · rename_i hrest
        simp only [Prod.mk.injEq, Except.ok.injEq] at h
        obtain ⟨rfl, rfl⟩ := h
        simp only [List.length_cons, ih hrest]

end Calculator.Expr
