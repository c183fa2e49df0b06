import Calculator.Proofs.MachineRun

/-!
# What a run writes

Only a call of `SET` changes the environment, and it makes exactly one binding: of the value on top
of the stack to the name of the key below it. The value is no key. A token that fails changes
nothing, so a run leaves the bindings that the calls of `SET` before the first fault have made.

`Completes` follows a run without a fault and lists these bindings. It says what there is to know
about the writes of a run, and the events and the environment of any run are read off it.

## Key results

- `Builtin.calls_of_call`: all that a call without a fault can do, as the rules of `Builtin.Calls`
- `Machine.set_or_not_of_step`: only `SET` writes, and what it writes
- `Machine.exists_completes_of_run`: the tokens of a run up to its fault, and what they have written
- `Machine.Completes.env_eq`: the environment after the run
-/

namespace Calculator

/-! ### Environments after several writes -/

namespace Environment

/-- The environment after bindings that are made one after the other. -/
def setAll (env : Environment) (sets : List (String × Value)) : Environment :=
  sets.foldl (fun env s => env.set s.1 s.2) env

variable {env : Environment} {sets : List (String × Value)} {name : String}

theorem defaults_setAll (env : Environment) (sets : List (String × Value)) :
    (env.setAll sets).defaults = env.defaults := by
  induction sets generalizing env with
  | nil => rfl
  | cons s sets ih => exact ih (env.set s.1 s.2)

/-- A name that is not written keeps its value. -/
theorem get?_setAll_of_forall_ne (h : ∀ s ∈ sets, s.1 ≠ name) :
    (env.setAll sets).get? name = env.get? name := by
  induction sets generalizing env with
  | nil => rfl
  | cons s sets ih =>
    obtain ⟨hs, hsets⟩ := List.forall_mem_cons.1 h
    have hset : (env.set s.1 s.2).get? name = env.get? name := by
      rw [get?_set, if_neg (Ne.symm hs)]
    exact (ih hsets).trans hset

/-- No write removes a binding. -/
theorem isSome_get?_setAll (h : (env.get? name).isSome) : ((env.setAll sets).get? name).isSome := by
  induction sets generalizing env with
  | nil => exact h
  | cons s sets ih =>
    have hset : ((env.set s.1 s.2).get? name).isSome := by
      -- The name is bound again, or it is bound as before.
      rw [get?_set]
      split
      · rfl
      · exact h
    exact ih hset

/-- Writes of anything but keys leave no key behind. -/
theorem keyFree_setAll (h : env.bindings.KeyFree) (hsets : ∀ s ∈ sets, s.2.isKey = false) :
    (env.setAll sets).bindings.KeyFree := by
  induction sets generalizing env with
  | nil => exact h
  | cons s sets ih =>
    obtain ⟨hs, hsets⟩ := List.forall_mem_cons.1 hsets
    exact ih (h.insert s.1 hs) hsets

end Environment

namespace Event

/-- The bindings that events report, in their order. -/
def writes (events : List Event) : List (String × Value) :=
  events.filterMap fun
    | write name value => some (name, value)
    | _ => none

@[simp] theorem writes_nil : writes [] = [] := rfl

@[simp] theorem writes_write (name : String) (value : Value) (events : List Event) :
    writes (write name value :: events) = (name, value) :: writes events := rfl

@[simp] theorem writes_append (xs ys : List Event) : writes (xs ++ ys) = writes xs ++ writes ys :=
  List.filterMap_append

end Event

/-! ### Calls -/

/-- What a call without a fault results in. -/
inductive Builtin.Calls : Builtin → List Value → CallResult → Prop
  | max {a b : Value} {x y : Float} (ha : a.asNumber = .ok x) (hb : b.asNumber = .ok y) :
    Calls .max [a, b] ⟨.number (greater x y), none⟩
  | sqrt {a : Value} {x : Float} (ha : a.asNumber = .ok x) :
    Calls .sqrt [a] ⟨.number x.sqrt, none⟩
  | choose (p a b : Value) : Calls .choose [p, a, b] ⟨if p.isTruthy then a else b, none⟩
  | assign (name : String) {value : Value} (hvalue : value.isKey = false) :
    Calls .assign [.key name, value] ⟨value, some (name, value)⟩

/-- A call without a fault follows one of the rules. -/
theorem Builtin.calls_of_call {b : Builtin} {values : List Value} {result : CallResult}
    (h : b.call values = .ok result) : b.Calls values result := by
  unfold call at h
  split at h
  · rename_i a c
    cases ha : a.asNumber with
    | error e => rw [ha] at h; exact nomatch h
    | ok x =>
      cases hc : c.asNumber with
      | error e => rw [ha, hc] at h; exact nomatch h
      | ok y =>
        rw [ha, hc] at h
        obtain rfl := Except.ok.inj h
        exact .max ha hc
  · rename_i a
    cases ha : a.asNumber with
    | error e => rw [ha] at h; exact nomatch h
    | ok x =>
      rw [ha] at h
      obtain rfl := Except.ok.inj h
      exact .sqrt ha
  · obtain rfl := Except.ok.inj h
    exact .choose _ _ _
  · -- The first argument has to be a key, and the second one must not be any.
    rename_i k v
    cases k with
    | key name =>
      cases v with
      | key other => exact nomatch h
      | _ =>
        obtain rfl := Except.ok.inj h
        exact .assign name rfl
    | _ => exact nomatch h
  · exact nomatch h

/-! ### Steps and runs -/

namespace Machine

/-- A token that does not fail is a `SET`, which binds the name of a key to the value above it, or
it leaves the environment alone and reports no binding. -/
theorem set_or_not_of_step {m m' : Machine} {t : Token} {events : List Event}
    (h : m.step t = .ok (m', events)) :
    (∃ name value below, t = .function "SET" ∧ m.stack = value :: .key name :: below ∧
        value.isKey = false ∧ events = [.write name value] ∧
        m' = { m with env := m.env.set name value, stack := value :: below }) ∨
      (t ≠ .function "SET" ∧ events = [] ∧ m'.env = m.env) := by
  cases steps_of_step h with
  | number | key | reference | operator => exact .inr ⟨nofun, rfl, rfl⟩
  | @function name b result hname harity hcall =>
    obtain rfl := Builtin.named?_eq_some_iff.1 hname
    generalize hvalues : (m.stack.take b.arity).reverse = values at hcall
    cases Builtin.calls_of_call hcall with
    | max | sqrt | choose => exact .inr ⟨by decide, rfl, rfl⟩
    | @assign name value hvalue =>
      -- The arguments lie on the stack with the last one on top.
      have htop : m.stack.take Builtin.assign.arity = [value, .key name] :=
        List.reverse_eq_iff.1 hvalues
      have hstack := List.take_append_drop Builtin.assign.arity m.stack
      rw [htop] at hstack
      exact .inl ⟨name, value, _, rfl, hstack.symm, hvalue, rfl, rfl⟩

/-- `Completes m ts final sets`: no token of `ts` fails, they lead from one machine to another, and
`sets` are the bindings that the calls of `SET` among them make. -/
inductive Completes : Machine → List Token → Machine → List (String × Value) → Prop
  | nil (m : Machine) : Completes m [] m []
  | set {m final : Machine} {name : String} {value : Value} {below : List Value} {ts : List Token}
    {sets : List (String × Value)} (hstack : m.stack = value :: .key name :: below)
    (hvalue : value.isKey = false)
    (hrest : Completes { m with env := m.env.set name value, stack := value :: below } ts final
      sets) :
    Completes m (.function "SET" :: ts) final ((name, value) :: sets)
  | other {m between final : Machine} {t : Token} {ts : List Token}
    {sets : List (String × Value)} (ht : t ≠ .function "SET") (hstep : m.step t = .ok (between, []))
    (henv : between.env = m.env) (hrest : Completes between ts final sets) :
    Completes m (t :: ts) final sets

namespace Completes

variable {m final : Machine} {ts : List Token} {sets : List (String × Value)}

/-- The environment is that of the start with the bindings made in it. -/
theorem env_eq (h : m.Completes ts final sets) : final.env = m.env.setAll sets := by
  induction h with
  | nil => rfl
  | set hstack hvalue hrest ih => exact ih
  | other ht hstep henv hrest ih => rw [ih, henv]

/-- No key is written. -/
theorem isKey_eq_false (h : m.Completes ts final sets) : ∀ s ∈ sets, s.2.isKey = false := by
  induction h with
  | nil => exact nofun
  | set hstack hvalue hrest ih => exact List.forall_mem_cons.2 ⟨hvalue, ih⟩
  | other ht hstep henv hrest ih => exact ih

/-- Without a `SET` nothing is written. -/
theorem set_mem (h : m.Completes ts final sets) (hsets : sets ≠ []) : .function "SET" ∈ ts := by
  induction h with
  | nil => exact absurd rfl hsets
  -- The first rule is the only one that adds a binding.
  | set hstack hvalue hrest ih => exact List.mem_cons_self
  | other ht hstep henv hrest ih => exact List.mem_cons_of_mem _ (ih hsets)

end Completes

/-- The report of a step is no binding. -/
theorem writes_report (m : Machine) (t : Token) : Event.writes (m.report t) = [] := by
  unfold report
  split <;> rfl

/-- A run without a fault completes its tokens, and reports the bindings that they make. -/
theorem completes_of_run {m final : Machine} {ts : List Token} {events : List Event}
    (h : m.run ts = (final, events, none)) : m.Completes ts final (Event.writes events) := by
  induction ts generalizing m events with
  | nil =>
    simp only [run, Prod.mk.injEq] at h
    obtain ⟨rfl, rfl, -⟩ := h
    exact .nil m
  | cons t ts ih =>
    obtain ⟨between, writes, rest, hstep, hrun, rfl⟩ := exists_of_run_cons h
    rw [Event.writes_append, Event.writes_append, writes_report, List.append_nil]
    -- Either the token is a `SET` and reports its binding, or it reports none.
    rcases set_or_not_of_step hstep with
      ⟨name, value, below, rfl, hstack, hvalue, rfl, rfl⟩ | ⟨ht, rfl, henv⟩
    · exact .set hstack hvalue (ih hrun)
    · exact .other ht hstep henv (ih hrun)

/-- A run completes the tokens up to the first that fails, and reports the bindings that these have
made. -/
theorem exists_completes_of_run {m final : Machine} {ts : List Token} {events : List Event}
    {fault? : Option EvalError} (h : m.run ts = (final, events, fault?)) :
    ∃ before after, ts = before ++ after ∧ m.Completes before final (Event.writes events) ∧
      (fault? = none → after = []) ∧
      ∀ e, fault? = some e → ∃ token rest, after = token :: rest ∧ final.step token = .error e := by
  obtain ⟨before, after, last, reported, hsplit, hbefore, hend⟩ := run_cases m ts
  have hcompletes := completes_of_run hbefore
  -- A run has one outcome, so the given one is that of the split.
  rcases hend with ⟨hafter, hrun⟩ | ⟨t, rest, e, hafter, herror, hrun⟩
  · obtain ⟨rfl, rfl, rfl⟩ : last = final ∧ reported = events ∧ none = fault? := by
      simpa only [Prod.mk.injEq] using hrun.symm.trans h
    exact ⟨before, after, hsplit, hcompletes, fun _ => hafter, nofun⟩
  · obtain ⟨rfl, rfl, rfl⟩ : last = final ∧ reported = events ∧ some e = fault? := by
      simpa only [Prod.mk.injEq] using hrun.symm.trans h
    refine ⟨before, after, hsplit, hcompletes, nofun, fun e' he => ⟨t, rest, hafter, ?_⟩⟩
    rwa [← Option.some.inj he]

end Machine

end Calculator
