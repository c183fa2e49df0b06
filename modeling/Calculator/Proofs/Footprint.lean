import Calculator.Proofs.WriteLog

/-!
# What a text can change

Keys are values like others: a program can choose between them, compare them, and use them to say
what it binds. But it cannot bind a name to a key. So as long as the host does not do so, either,
the keys on the stack are those that the text names itself, and a text changes nothing but names
that it mentions as keys.

## Key results

- `Machine.Completes.keys`: where the keys that a run leaves and binds come from
- `keyFree_calculate`, `Action.keyFree_performAll`: environments stay without keys
- `performAll_footprint`: all of it about whole histories
-/

namespace Calculator

/-- Whether neither the bindings nor the defaults of an environment hold a key. -/
structure Environment.KeyFree (env : Environment) : Prop where
  bindings : env.bindings.KeyFree
  defaults : env.defaults.KeyFree

/-! ### Keys on the stack -/

/-- A function results in a key only if it is among its arguments. -/
theorem Builtin.Calls.key_mem {b : Builtin} {values : List Value} {result : CallResult}
    {name : String} (h : b.Calls values result) (hkey : result.value = .key name) :
    .key name ∈ values := by
  cases h with
  | max | sqrt => exact nomatch hkey
  -- One of the two branches is the result.
  | choose p a c =>
    rw [← hkey]
    simp only
    split <;> simp
  -- The value that is bound comes back as the result.
  | assign target hvalue =>
    rw [← hkey]
    simp

namespace Machine

/-- Whether all keys on a stack are among those with a property. -/
def KeysAmong (P : String → Prop) (stack : List Value) : Prop := ∀ name, .key name ∈ stack → P name

section

variable {P : String → Prop} {m m' : Machine}

/-- A value put on the stack adds at most its own key. -/
theorem KeysAmong.cons {value : Value} {stack : List Value} (h : KeysAmong P stack)
    (hvalue : ∀ name, value = .key name → P name) : KeysAmong P (value :: stack) := by
  intro name hname
  rcases List.mem_cons.1 hname with heq | hname
  · exact hvalue name heq.symm
  · exact h name hname

/-- Keys come to the stack as tokens, and not from an environment that has none. -/
theorem Steps.keysAmong {t : Token} {events : List Event} (h : m.Steps t m' events)
    (hfree : m.env.bindings.KeyFree) (htoken : ∀ name, t = .key name → P name)
    (hstack : KeysAmong P m.stack) : KeysAmong P m'.stack := by
  cases h with
  | number x => exact hstack.cons nofun
  | key name => exact hstack.cons fun other heq => htoken other (Value.key.inj heq ▸ rfl)
  -- What an environment without keys binds is no key.
  | @reference name value hget =>
    refine hstack.cons fun other heq => ?_
    have hkey := hfree name value hget
    rw [heq] at hkey
    exact nomatch hkey
  -- No operator results in a key.
  | @operator op a b value below htop happly =>
    have hbelow : KeysAmong P below := fun name hname => hstack name (by simp [htop, hname])
    refine hbelow.cons fun name heq => ?_
    have hkey := Operator.isKey_apply happly
    rw [heq] at hkey
    exact nomatch hkey
  -- A key among the results was among the arguments.
  | @function name b result hname harity hcall =>
    rw [record_stack]
    have hbelow : KeysAmong P (m.stack.drop b.arity) := fun name hname =>
      hstack name (List.mem_of_mem_drop hname)
    refine hbelow.cons fun name heq => hstack name ?_
    have hmem := (Builtin.calls_of_call hcall).key_mem heq
    exact List.mem_of_mem_take (List.mem_reverse.1 hmem)

/-- The keys that a run leaves on the stack, and those whose names it binds, are on the stack at its
start or among its tokens. -/
theorem Completes.keys {ts : List Token} {sets : List (String × Value)}
    (h : m.Completes ts m' sets) (hfree : m.env.bindings.KeyFree)
    (htokens : ∀ name, .key name ∈ ts → P name) (hstack : KeysAmong P m.stack) :
    KeysAmong P m'.stack ∧ ∀ s ∈ sets, P s.1 := by
  induction h with
  | nil => exact ⟨hstack, nofun⟩
  -- The name that is bound was on the stack as a key, and the value is none.
  | @set m final name value below ts sets htop hvalue hrest ih =>
    have hname : P name := hstack name (by simp [htop])
    have hbelow : KeysAmong P below := fun other hother => hstack other (by simp [htop, hother])
    have hstack' : KeysAmong P (value :: below) := hbelow.cons fun other heq => by
      rw [heq] at hvalue
      exact nomatch hvalue
    obtain ⟨hfinal, hrest⟩ := ih (hfree.insert name hvalue)
      (fun other hother => htokens other (List.mem_cons_of_mem _ hother)) hstack'
    exact ⟨hfinal, List.forall_mem_cons.2 ⟨hname, hrest⟩⟩
  | @other m between final t ts sets ht hstep henv hrest ih =>
    have hstack' := (steps_of_step hstep).keysAmong hfree
      (fun name heq => htokens name (heq ▸ List.mem_cons_self)) hstack
    exact ih (henv ▸ hfree) (fun name hname => htokens name (List.mem_cons_of_mem t hname)) hstack'

end

end Machine

/-! ### Calculations -/

section

variable {strictness : Strictness} {tracing : Bool} {text : String} {env : Environment}

/-- Without keys in the environment, a text binds names that it mentions as keys. -/
theorem names_calculate (hfree : env.bindings.KeyFree) :
    ∀ s ∈ Event.writes (calculate strictness tracing text env).events,
      ∃ tokens, Token.scan strictness text = .ok tokens ∧ .key s.1 ∈ tokens := by
  obtain ⟨ts, final, hcompletes, -, htokens⟩ :=
    exists_completes_calculate strictness tracing text env
  have hstack : Machine.KeysAmong
      (fun name => ∃ tokens, Token.scan strictness text = .ok tokens ∧ .key name ∈ tokens)
      (Machine.start env tracing).stack := nofun
  exact (hcompletes.keys hfree (fun name hname => htokens (.key name) hname) hstack).2

/-- Without keys in the environment, a key that comes of a text is mentioned in it. -/
theorem key_mem_of_calculate (hfree : env.bindings.KeyFree) {name : String}
    (h : (calculate strictness tracing text env).result = .ok (.key name)) :
    ∃ tokens, Token.scan strictness text = .ok tokens ∧ .key name ∈ tokens := by
  cases hrpn : toPostfix strictness text with
  | error e =>
    rw [calculate_of_error hrpn] at h
    exact nomatch h
  | ok rpn =>
    obtain ⟨tokens, hscan, -⟩ := toPostfix_eq_ok_iff.1 hrpn
    obtain ⟨before, after, final, rfl, hcompletes, -, houtcome⟩ :=
      completes_calculate hrpn tracing env
    have hstack : Machine.KeysAmong (fun name => .key name ∈ tokens)
        (Machine.start env tracing).stack := nofun
    obtain ⟨hfinal, -⟩ := hcompletes.keys hfree
      (fun name hname => mem_of_toPostfix hscan hrpn (List.mem_append_left after hname)) hstack
    -- All tokens got through, or the calculation has failed and there is no result.
    rcases houtcome with ⟨-, hresult⟩ | ⟨token, rest, e, -, -, hresult⟩
    · rw [hresult] at h
      cases hvalue : final.value with
      | error e =>
        rw [hvalue] at h
        exact nomatch h
      | ok v =>
        rw [hvalue] at h
        obtain rfl := Except.ok.inj h
        refine ⟨tokens, hscan, hfinal name ?_⟩
        rw [Machine.stack_of_value hvalue]
        exact List.mem_singleton_self _
    · exact nomatch hresult.symm.trans h

/-- A text without the word `SET` binds nothing. -/
theorem writes_calculate_of_not_set
    (h : ∀ tokens, Token.scan strictness text = .ok tokens → .function "SET" ∉ tokens) :
    Event.writes (calculate strictness tracing text env).events = [] := by
  obtain ⟨ts, final, hcompletes, -, htokens⟩ :=
    exists_completes_calculate strictness tracing text env
  refine Decidable.byContradiction fun hsets => ?_
  obtain ⟨tokens, hscan, hset⟩ := htokens _ (hcompletes.set_mem hsets)
  exact h tokens hscan hset

/-- No text binds a name to a key. -/
theorem isKey_writes_calculate :
    ∀ s ∈ Event.writes (calculate strictness tracing text env).events, s.2.isKey = false := by
  obtain ⟨ts, final, hcompletes, -⟩ := exists_completes_calculate strictness tracing text env
  exact hcompletes.isKey_eq_false

/-- A calculation leaves an environment without keys as one. -/
theorem keyFree_calculate (h : env.KeyFree) :
    (calculate strictness tracing text env).env.KeyFree := by
  rw [env_calculate]
  refine ⟨Environment.keyFree_setAll h.bindings isKey_writes_calculate, ?_⟩
  rw [Environment.defaults_setAll]
  exact h.defaults

end

/-! ### Histories -/

/-- Environments stay without keys if the host does not bind any. -/
theorem Action.keyFree_performAll {env : Environment} {actions : List Action} (h : env.KeyFree)
    (hset : ∀ name value, .set name value ∈ actions → value.isKey = false) :
    (performAll env actions).1.KeyFree := by
  induction actions generalizing env with
  | nil => exact h
  | cons action rest ih =>
    have hstep : (action.perform env).1.KeyFree := by
      cases action with
      | set name value =>
        exact ⟨h.bindings.insert name (hset name value List.mem_cons_self), h.defaults⟩
      -- The defaults are without keys as well.
      | reset => exact ⟨h.defaults, h.defaults⟩
      | calculate strictness tracing text => exact keyFree_calculate h
    exact ih hstep fun name value hmem => hset name value (List.mem_cons_of_mem action hmem)

/-- An environment without keys stays so, whatever texts are calculated and however often it is
reset, as long as the host itself binds no name to a key. Each of the calculations leaves all bound
names bound. It changes what a name is bound to only if the text mentions the name as a key, and
leaves the environment as it is if the text does not mention `SET`. -/
theorem performAll_footprint {env : Environment} (h : env.KeyFree) {actions : List Action}
    (hset : ∀ name value, .set name value ∈ actions → value.isKey = false) :
    (Action.performAll env actions).1.KeyFree ∧
    ∀ before strictness tracing text after,
      actions = before ++ .calculate strictness tracing text :: after →
      ∀ reached left, (Action.performAll env before).1 = reached →
        (calculate strictness tracing text reached).env = left →
        (∀ name, (reached.get? name).isSome → (left.get? name).isSome) ∧
        (∀ name, left.get? name ≠ reached.get? name →
          ∃ tokens, Token.scan strictness text = .ok tokens ∧ .key name ∈ tokens) ∧
        ((∀ tokens, Token.scan strictness text = .ok tokens → .function "SET" ∉ tokens) →
          left = reached) := by
  refine ⟨Action.keyFree_performAll h hset, ?_⟩
  rintro before strictness tracing text after rfl reached left rfl rfl
  have hreached : (Action.performAll env before).1.KeyFree :=
    Action.keyFree_performAll h fun name value hmem =>
      hset name value (List.mem_append_left _ hmem)
  rw [env_calculate]
  refine ⟨fun name => Environment.isSome_get?_setAll, fun name hchanged => ?_, fun hnone => ?_⟩
  · -- A name that is not written keeps its value.
    refine Classical.byContradiction fun hnot => hchanged ?_
    refine Environment.get?_setAll_of_forall_ne fun s hs heq => hnot ?_
    exact heq ▸ names_calculate hreached.bindings s hs
  · rw [writes_calculate_of_not_set hnone]
    rfl

/-- `IF` chooses the key that is bound, which the text mentions. The next text has no `SET`. -/
theorem performAll_footprint_chosen_key :
    (Action.performAll .standard
        [.calculate .lenient false "SET(IF(#C = #D, #C, #D), 5) + $X", .set "F" (.number 1),
          .calculate .strict true "$D * 2"]).1.KeyFree ∧
    ((calculate .lenient false "SET(IF(#C = #D, #C, #D), 5) + $X" .standard).env.get? "PI").isSome ∧
    (∃ tokens, Token.scan .lenient "SET(IF(#C = #D, #C, #D), 5) + $X" = .ok tokens ∧
      .key "D" ∈ tokens) ∧
    ∃ reached, (calculate .strict true "$D * 2" reached).env = reached ∧
      reached.get? "D" = some (.number 5) := by
  have hconstants : Environment.constants.KeyFree :=
    (Bindings.keyFree_empty.insert "PI" rfl).insert "E" rfl
  have hstandard : Environment.standard.KeyFree := ⟨hconstants, hconstants⟩
  -- The only name that the host sets is bound to a number.
  have hset : ∀ name value, Action.set name value ∈
      [.calculate .lenient false "SET(IF(#C = #D, #C, #D), 5) + $X", .set "F" (.number 1),
        .calculate .strict true "$D * 2"] → value.isKey = false := by
    intro name value hmem
    simp only [List.mem_cons, Action.set.injEq, reduceCtorEq, List.not_mem_nil, false_or,
      or_false] at hmem
    rw [hmem.2]
    rfl
  obtain ⟨hfree, hcalculations⟩ := performAll_footprint hstandard hset
  obtain ⟨hbound, hchanged, -⟩ := hcalculations [] .lenient false
    "SET(IF(#C = #D, #C, #D), 5) + $X" _ rfl _ _ rfl rfl
  obtain ⟨-, -, hsame⟩ := hcalculations
    [.calculate .lenient false "SET(IF(#C = #D, #C, #D), 5) + $X", .set "F" (.number 1)]
    .strict true "$D * 2" [] rfl _ _ rfl rfl
  have hscan : Token.scan .strict "$D * 2" =
      .ok [.reference "D", .operator .mul, .number 2] := by decide +kernel
  refine ⟨hfree, hbound "PI" (by decide +kernel), hchanged "D" (by decide +kernel), _,
    hsame fun tokens htokens => ?_, by decide +kernel⟩
  obtain rfl := Except.ok.inj (htokens.symm.trans hscan)
  decide

end Calculator
