import Calculator.History
import Calculator.Proofs.Preparation
import Calculator.Proofs.Writes

/-!
# Environments from their log

Every change of an environment is reported, and every report is of a change that was made. So the
events of a history give back the environment it leads to: each name has the value of the last write
to it since the last reset, or the default that the reset has put back.

A calculation that fails is no exception. It keeps what was written before the failure, which is
nothing if there was nothing to evaluate (`Leaves`).

## Key results

- `Event.get?_replay_write`, `Event.get?_replay_reset`: the last change that a log reports
- `exists_completes_calculate`, `env_calculate`: the bindings that a calculation makes are those
  that it reports
- `leaves_calculate`: what a calculation that fails leaves behind
- `performAll_replay`: all of it about whole histories
-/

namespace Calculator

/-! ### Replaying a log -/

namespace Event

/-- Whether an event may change what a name is bound to. -/
def touches (name : String) : Event → Bool
  | write other _ => other == name
  | reset _ => true
  | _ => false

/-- The environment after the changes that a log reports. -/
def replayAll (env : Environment) (events : List Event) : Environment := events.foldl replay env

variable {env : Environment} {events : List Event} {name : String}

@[simp] theorem replayAll_append (env : Environment) (xs ys : List Event) :
    replayAll env (xs ++ ys) = replayAll (replayAll env xs) ys :=
  List.foldl_append

/-- No event changes the defaults. -/
theorem defaults_replayAll (env : Environment) (events : List Event) :
    (replayAll env events).defaults = env.defaults := by
  induction events generalizing env with
  | nil => rfl
  | cons e events ih =>
    have hstep : (replay env e).defaults = env.defaults := by
      cases e <;> rfl
    exact (ih (replay env e)).trans hstep

/-- Without a reset, the bindings that are reported are made. -/
theorem replayAll_eq_setAll (env : Environment) (h : ∀ count, .reset count ∉ events) :
    replayAll env events = env.setAll (writes events) := by
  induction events generalizing env with
  | nil => rfl
  | cons e events ih =>
    have hevents : ∀ count, .reset count ∉ events := fun count hmem =>
      h count (List.mem_cons_of_mem e hmem)
    cases e with
    | reset count => exact absurd List.mem_cons_self (h count)
    | write name value => exact ih (env.set name value) hevents
    | _ => exact ih env hevents

/-- Events that do not touch a name leave it bound as it was. -/
theorem get?_replayAll (h : ∀ e ∈ events, e.touches name = false) :
    (replayAll env events).get? name = env.get? name := by
  induction events generalizing env with
  | nil => rfl
  | cons e events ih =>
    obtain ⟨he, hevents⟩ := List.forall_mem_cons.1 h
    have hstep : (replay env e).get? name = env.get? name := by
      cases e with
      | write other value =>
        -- A write that touches the name would be one to it.
        have hne : name ≠ other := fun heq => by simp [touches, heq] at he
        rw [replay, Environment.get?_set, if_neg hne]
      | reset count => cases he
      | _ => rfl
    exact (ih hevents).trans hstep

/-- A name has the value of the last write to it, if no reset follows. -/
theorem get?_replay_write {before after : List Event} {value : Value}
    (hafter : ∀ e ∈ after, e.touches name = false) :
    (replayAll env (before ++ .write name value :: after)).get? name = some value := by
  have hlast : ((replayAll env before).set name value).get? name = some value := by
    rw [Environment.get?_set, if_pos rfl]
  rw [replayAll_append]
  exact (get?_replayAll hafter).trans hlast

/-- After the last reset a name has its default, if no write to it follows. -/
theorem get?_replay_reset {before after : List Event} {count : Nat}
    (hafter : ∀ e ∈ after, e.touches name = false) :
    (replayAll env (before ++ .reset count :: after)).get? name = env.defaults.get? name := by
  have hreset : (replayAll env before).reset.get? name = env.defaults.get? name :=
    congrArg (Bindings.get? · name) (defaults_replayAll env before)
  rw [replayAll_append]
  exact (get?_replayAll hafter).trans hreset

end Event

/-! ### Calculations -/

section

variable {strictness : Strictness} {tracing : Bool} {text : String} {env : Environment}

/-- Before an evaluation nothing is written. -/
theorem writes_prepare (strictness : Strictness) (text : String) :
    Event.writes (prepare strictness text).2 = [] := by
  unfold prepare
  split
  · rfl
  · split
    · rfl
    · rfl

/-- A calculation completes tokens of the postfix order, and its bindings are those that these make.
It goes on to the end, unless a token fails. -/
theorem completes_calculate {rpn : List Token} (hrpn : toPostfix strictness text = .ok rpn)
    (tracing : Bool) (env : Environment) :
    ∃ before after final, rpn = before ++ after ∧
      (Machine.start env tracing).Completes before final
        (Event.writes (calculate strictness tracing text env).events) ∧
      (calculate strictness tracing text env).env = final.env ∧
      ((after = [] ∧
          (calculate strictness tracing text env).result = final.value.mapError .eval) ∨
        ∃ token rest e, after = token :: rest ∧ final.step token = .error e ∧
          (calculate strictness tracing text env).result = .error (.eval e)) := by
  rcases hrun : (Machine.start env tracing).run rpn with ⟨final, events, fault?⟩
  -- All bindings come from the run.
  have hwrites : Event.writes ((prepare strictness text).2 ++ .evaluating rpn :: events) =
      Event.writes events := by
    rw [Event.writes_append, writes_prepare]
    rfl
  obtain ⟨before, after, hsplit, hcompletes, hnone, hsome⟩ := Machine.exists_completes_of_run hrun
  refine ⟨before, after, final, hsplit, ?_, ?_, ?_⟩
  · simp only [calculate_of_ok hrpn, Machine.eval_of_run hrun, hwrites]
    exact hcompletes
  · simp only [calculate_of_ok hrpn, Machine.eval_of_run hrun]
  · simp only [calculate_of_ok hrpn, Machine.eval_of_run hrun]
    cases fault? with
    | none => exact .inl ⟨hnone rfl, rfl⟩
    | some e =>
      obtain ⟨token, rest, hafter, herror⟩ := hsome e rfl
      exact .inr ⟨token, rest, e, hafter, herror, rfl⟩

/-- Whatever comes of it, a calculation completes tokens of its text, and its bindings are those that
these make. -/
theorem exists_completes_calculate (strictness : Strictness) (tracing : Bool) (text : String)
    (env : Environment) :
    ∃ ts final, (Machine.start env tracing).Completes ts final
        (Event.writes (calculate strictness tracing text env).events) ∧
      (calculate strictness tracing text env).env = final.env ∧
      ∀ t ∈ ts, ∃ tokens, Token.scan strictness text = .ok tokens ∧ t ∈ tokens := by
  cases hrpn : toPostfix strictness text with
  | error e =>
    -- Nothing is evaluated, so no token is completed.
    rw [calculate_of_error hrpn tracing env, writes_prepare]
    exact ⟨[], _, .nil _, rfl, nofun⟩
  | ok rpn =>
    obtain ⟨tokens, hscan, -⟩ := toPostfix_eq_ok_iff.1 hrpn
    obtain ⟨before, after, final, rfl, hcompletes, henv, -⟩ := completes_calculate hrpn tracing env
    refine ⟨before, final, hcompletes, henv, fun t ht => ⟨tokens, hscan, ?_⟩⟩
    exact mem_of_toPostfix hscan hrpn (List.mem_append_left after ht)

/-- A calculation makes the bindings that it reports. -/
theorem env_calculate (strictness : Strictness) (tracing : Bool) (text : String)
    (env : Environment) :
    (calculate strictness tracing text env).env =
      env.setAll (Event.writes (calculate strictness tracing text env).events) := by
  obtain ⟨ts, final, hcompletes, henv, -⟩ :=
    exists_completes_calculate strictness tracing text env
  rw [henv]
  exact hcompletes.env_eq

/-- A calculation resets nothing. -/
theorem reset_not_mem_calculate (count : Nat) :
    .reset count ∉ (calculate strictness tracing text env).events := by
  -- The scanner and the conversion report tokens, and the machine bindings and steps.
  have hprepare : .reset count ∉ (prepare strictness text).2 := by
    unfold prepare
    split
    · exact nofun
    · split <;> simp
  intro hmem
  cases hrpn : toPostfix strictness text with
  | error e =>
    rw [calculate_of_error hrpn tracing env] at hmem
    exact hprepare hmem
  | ok rpn =>
    rw [calculate_of_ok hrpn tracing env] at hmem
    rcases List.mem_append.1 hmem with hmem | hmem
    · exact hprepare hmem
    · rcases List.mem_cons.1 hmem with heq | hmem
      · exact nomatch heq
      · rcases Machine.eq_write_or_step_of_mem_run hmem with ⟨_, _, heq⟩ | ⟨_, _, _, _, heq⟩
        · exact nomatch heq
        · exact nomatch heq

/-- What a calculation that fails leaves behind: the environment and the bindings it has made. -/
inductive Leaves (strictness : Strictness) (tracing : Bool) (text : String) (env : Environment) :
    Failure → Environment → List (String × Value) → Prop
  | scan (e : ScanError) : Leaves strictness tracing text env (.scan e) env []
  | parse (e : ParseError) : Leaves strictness tracing text env (.parse e) env []
  /-- A token fails, and what the calls of `SET` before it have bound stays bound. -/
  | token {before after : List Token} {token : Token} {final : Machine} {e : EvalError}
    {sets : List (String × Value)}
    (hrpn : toPostfix strictness text = .ok (before ++ token :: after))
    (hbefore : (Machine.start env tracing).Completes before final sets)
    (hfail : final.step token = .error e) :
    Leaves strictness tracing text env (.eval e) (env.setAll sets) sets
  /-- No token fails, but they do not leave a single value. -/
  | value {rpn : List Token} {final : Machine} {e : EvalError} {sets : List (String × Value)}
    (hrpn : toPostfix strictness text = .ok rpn)
    (hall : (Machine.start env tracing).Completes rpn final sets)
    (hvalue : final.value = .error e) :
    Leaves strictness tracing text env (.eval e) (env.setAll sets) sets

/-- A calculation that fails leaves what it has bound before the failure, and nothing else. -/
theorem leaves_calculate {e : Failure}
    (h : (calculate strictness tracing text env).result = .error e) :
    Leaves strictness tracing text env e (calculate strictness tracing text env).env
      (Event.writes (calculate strictness tracing text env).events) := by
  cases hrpn : toPostfix strictness text with
  | error e' =>
    rw [calculate_of_error hrpn tracing env] at h
    rw [calculate_of_error hrpn tracing env, writes_prepare]
    obtain rfl := Except.error.inj h
    rcases toPostfix_eq_error_iff.1 hrpn with ⟨cause, -, rfl⟩ | ⟨tokens, cause, -, -, rfl⟩
    · exact .scan cause
    · exact .parse cause
  | ok rpn =>
    obtain ⟨before, after, final, rfl, hcompletes, -, houtcome⟩ :=
      completes_calculate hrpn tracing env
    rw [env_calculate]
    -- Either all tokens were completed, or the first one left has failed.
    rcases houtcome with ⟨rfl, hresult⟩ | ⟨token, rest, e', rfl, hfail, hresult⟩
    · rw [List.append_nil] at hrpn
      cases hvalue : final.value with
      | ok v => rw [hresult, hvalue] at h; exact nomatch h
      | error e' =>
        rw [hresult, hvalue] at h
        obtain rfl := Except.error.inj h
        exact .value hrpn hcompletes hvalue
    · rw [hresult] at h
      obtain rfl := Except.error.inj h
      exact .token hrpn hcompletes hfail

end

/-! ### Histories -/

namespace Action

/-- An action leads to the environment that its events report. -/
theorem perform_replay (env : Environment) (action : Action) :
    (action.perform env).1 = Event.replayAll env (action.perform env).2 := by
  cases action with
  | set name value => rfl
  | reset => rfl
  | calculate strictness tracing text =>
    exact (env_calculate strictness tracing text env).trans
      (Event.replayAll_eq_setAll env reset_not_mem_calculate).symm

theorem performAll_append (env : Environment) (xs ys : List Action) :
    performAll env (xs ++ ys) =
      ((performAll (performAll env xs).1 ys).1,
        (performAll env xs).2 ++ (performAll (performAll env xs).1 ys).2) := by
  induction xs generalizing env with
  | nil => rfl
  | cons action xs ih => simp only [List.cons_append, performAll, ih, List.append_assoc]

/-- Actions lead to the environment that their events report. -/
theorem env_performAll (env : Environment) (actions : List Action) :
    (performAll env actions).1 = Event.replayAll env (performAll env actions).2 := by
  induction actions generalizing env with
  | nil => rfl
  | cons action rest ih =>
    -- The events of the first action lead to the environment in which the others go on.
    simp only [performAll, Event.replayAll_append]
    rw [ih, ← perform_replay]

/-- Actions leave the defaults as they are. -/
theorem defaults_performAll (env : Environment) (actions : List Action) :
    (performAll env actions).1.defaults = env.defaults := by
  rw [env_performAll, Event.defaults_replayAll]

end Action

/-- Whatever is done to an environment, the result is what the log reports: the bindings at the
start, with the writes and resets applied in order. So a name has the value of the last write to it
since the last reset, or else what the reset has put back, or, without a reset, what it was bound to
at the start. The defaults stay the same, so every reset leads to the same environment. A calculation
that fails leaves the bindings that were completed before the failure. -/
theorem performAll_replay {env final : Environment} {actions : List Action} {events : List Event}
    (h : Action.performAll env actions = (final, events)) :
    final = Event.replayAll env events ∧ final.defaults = env.defaults ∧
    (∀ before name value after, events = before ++ .write name value :: after →
      (∀ e ∈ after, e.touches name = false) → final.get? name = some value) ∧
    (∀ before count after name, events = before ++ .reset count :: after →
      (∀ e ∈ after, e.touches name = false) → final.get? name = env.defaults.get? name) ∧
    (∀ name, (∀ e ∈ events, e.touches name = false) → final.get? name = env.get? name) ∧
    (∀ before after, actions = before ++ .reset :: after →
      (Action.performAll env (before ++ [.reset])).1 = .ofDefaults env.defaults) ∧
    ∀ before strictness tracing text after,
      actions = before ++ .calculate strictness tracing text :: after →
      ∀ e, (calculate strictness tracing text (Action.performAll env before).1).result = .error e →
        Leaves strictness tracing text (Action.performAll env before).1 e
          (calculate strictness tracing text (Action.performAll env before).1).env
          (Event.writes
            (calculate strictness tracing text (Action.performAll env before).1).events) := by
  have hfinal : final = Event.replayAll env events := by
    have hreplay := Action.env_performAll env actions
    rwa [h] at hreplay
  refine ⟨hfinal, ?_, ?_, ?_, ?_, ?_, fun _ _ _ _ _ _ _ => leaves_calculate⟩
  · rw [hfinal, Event.defaults_replayAll]
  · rintro before name value after rfl hafter
    rw [hfinal, Event.get?_replay_write hafter]
  · rintro before count after name rfl hafter
    rw [hfinal, Event.get?_replay_reset hafter]
  · intro name hnone
    rw [hfinal, Event.get?_replayAll hnone]
  · intro before after _
    -- A reset looks at the defaults only, and these have not changed.
    have hdefaults := Action.defaults_performAll env before
    rw [Action.performAll_append]
    show (Action.performAll env before).1.reset = _
    rw [Environment.reset, hdefaults]
    rfl

/-- `SET(#A, 2) + $C` binds `A` before it fails, and the reset that follows takes the binding away.
`SET(#E, 3` is not evaluated, so `E` keeps its default. -/
theorem performAll_replay_undefined_variable :
    ∃ final events,
      Action.performAll .standard
        [.calculate .lenient false "SET(#A, 2) + $C", .reset, .set "B" (.key "K"),
          .calculate .strict false "SET(#E, 3"] = (final, events) ∧
      final.get? "A" = Environment.standard.defaults.get? "A" ∧
      final.get? "B" = some (.key "K") ∧
      Leaves .lenient false "SET(#A, 2) + $C" .standard (.eval (.undefinedVariable "C"))
        (Environment.standard.set "A" (.number 2)) [("A", .number 2)] := by
  have h : Action.performAll .standard
      [.calculate .lenient false "SET(#A, 2) + $C", .reset, .set "B" (.key "K"),
        .calculate .strict false "SET(#E, 3"] =
      (Environment.standard.set "B" (.key "K"),
        [.scanned 8,
          .converted [.key "A", .number 2, .function "SET", .reference "C", .operator .add],
          .evaluating [.key "A", .number 2, .function "SET", .reference "C", .operator .add],
          .write "A" (.number 2), .reset 2, .write "B" (.key "K"), .scanned 5]) := by
    decide +kernel
  obtain ⟨-, -, hwrite, hreset, -, -, hleaves⟩ := performAll_replay h
  have hfailed := hleaves [] .lenient false "SET(#A, 2) + $C" _ rfl
    (.eval (.undefinedVariable "C")) (by decide +kernel)
  have henv : (calculate .lenient false "SET(#A, 2) + $C" .standard).env =
      Environment.standard.set "A" (.number 2) := by decide +kernel
  have hwrites : Event.writes (calculate .lenient false "SET(#A, 2) + $C" .standard).events =
      [("A", .number 2)] := by decide +kernel
  refine ⟨_, _, h, ?_, ?_, ?_⟩
  · exact hreset (_ :: _ :: _ :: [_]) 2 [_, _] "A" rfl (by decide)
  · exact hwrite (_ :: _ :: _ :: _ :: [_]) "B" (.key "K") [_] rfl (by decide)
  · rw [← henv, ← hwrites]
    exact hfailed

end Calculator
