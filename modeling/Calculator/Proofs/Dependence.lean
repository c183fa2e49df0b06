import Calculator.Proofs.WriteLog

/-!
# What an evaluation depends on

A run looks into its environment only where a token refers to a name, and it never looks at the
switch for the reports of single steps. So a machine with another environment or with the switch
turned goes the same way, as long as the two environments agree on the names that the tokens refer
to. It fails at the same token, makes the same bindings and has the same operands after them,
whatever the other names are bound to. This holds of keys as well, which come out of the environment
and then say what is bound.

## Key results

- `Environment.get?_setAll_congr`: the same bindings made in two environments
- `Machine.step_within`, `Machine.run_within`: one token and several tokens, in another environment
- `Machine.eval_agree`: whole evaluations, on machines that agree on what the tokens refer to
- `Machine.evaluate_eq_setAll`: tokens evaluated by themselves make the bindings of a machine
- `calculate_agree`, `evaluate_agree`: the same about texts and about tokens, in two environments
-/

namespace Calculator

namespace Environment

theorem setAll_append (env : Environment) (xs ys : List (String × Value)) :
    env.setAll (xs ++ ys) = (env.setAll xs).setAll ys :=
  List.foldl_append

/-- The same bindings made in two environments: names that are bound alike stay so, and names that
are written are bound alike afterwards. -/
theorem get?_setAll_congr {env env' : Environment} {sets : List (String × Value)} {name : String}
    (h : env.get? name = env'.get? name ∨ ∃ s ∈ sets, s.1 = name) :
    (env.setAll sets).get? name = (env'.setAll sets).get? name := by
  induction sets generalizing env env' with
  | nil =>
    rcases h with h | ⟨s, hs, -⟩
    · exact h
    · exact nomatch hs
  | cons s sets ih =>
    apply ih
    -- If the first write is to this name, it is bound alike from here on.
    by_cases hname : name = s.1
    · left
      rw [get?_set, get?_set, if_pos hname, if_pos hname]
    · rcases h with h | ⟨t, ht, htname⟩
      · left
        rw [get?_set, get?_set, if_neg hname, if_neg hname, h]
      · right
        -- The write is not the first one, which is to another name.
        rcases List.mem_cons.1 ht with rfl | ht
        · exact absurd htname.symm hname
        · exact ⟨t, ht, htname⟩

end Environment

namespace Event

/-- Bindings are not among the reports of single steps. -/
theorem writes_filter_isStep (events : List Event) :
    writes (events.filter (!·.isStep)) = writes events := by
  induction events with
  | nil => rfl
  | cons e events ih =>
    -- Only a write has something to show, and it is no report of a step.
    cases e with
    | write name value => exact congrArg ((name, value) :: ·) ih
    | _ => exact ih

end Event

namespace Machine

/-- A machine with the same operands in another environment, where single steps are reported or
not. -/
def within (m : Machine) (env : Environment) (tracing : Bool) : Machine :=
  { m with env := env, tracing := tracing }

@[simp] theorem within_env (m : Machine) (env : Environment) (tracing : Bool) :
    (m.within env tracing).env = env := rfl

@[simp] theorem within_stack (m : Machine) (env : Environment) (tracing : Bool) :
    (m.within env tracing).stack = m.stack := rfl

/-! ### One token -/

/-- A token does the same to a machine in another environment, if it refers to no name that is bound
differently there. -/
theorem step_within (m : Machine) {t : Token} {env : Environment} (tracing : Bool)
    (h : ∀ name, t = .reference name → env.get? name = m.env.get? name) :
    (m.within env tracing).step t =
      (m.step t).map fun next =>
        (next.1.within (env.setAll (Event.writes next.2)) tracing, next.2) := by
  cases t with
  | number x => rfl
  | key name => rfl
  | reference name =>
    -- This is the only look at the environment.
    simp only [step, within_env, h name rfl]
    cases m.env.get? name <;> rfl
  | operator op =>
    simp only [step, within_stack]
    split
    · rename_i right left below hstack
      cases op.apply left right <;> rfl
    · rfl
  | function name =>
    simp only [step]
    cases Builtin.named? name with
    | none => rfl
    | some b =>
      -- Whether a call fails depends on the operands alone.
      by_cases hfew : m.stack.length < b.arity
      · simp only [call, within_stack, hfew, ↓reduceIte]
        rfl
      · simp only [call, within_stack, hfew, ↓reduceIte]
        cases b.call (m.stack.take b.arity).reverse with
        | error e => rfl
        | ok result =>
          -- A call makes one binding or none.
          obtain ⟨value, write?⟩ := result
          cases write? <;> rfl
  | punct mark => rfl

/-- A token makes the bindings that it reports, and leaves the switch for reports alone. -/
theorem env_tracing_of_step {m m' : Machine} {t : Token} {events : List Event}
    (h : m.step t = .ok (m', events)) :
    m'.env = m.env.setAll (Event.writes events) ∧ m'.tracing = m.tracing := by
  -- The machine is compared with itself.
  have hself : m.step t = (m.step t).map fun next =>
      (next.1.within (m.env.setAll (Event.writes next.2)) m.tracing, next.2) :=
    step_within m m.tracing fun _ _ => rfl
  rw [h] at hself
  have hm' : m' = m'.within (m.env.setAll (Event.writes events)) m.tracing :=
    (Prod.mk.inj (Except.ok.inj hself)).1
  exact ⟨congrArg Machine.env hm', (congrArg Machine.tracing hm' :)⟩

/-! ### Several tokens -/

/-- The report of a step goes with the other reports of steps. -/
theorem filter_isStep_report (m : Machine) (t : Token) :
    (m.report t).filter (!·.isStep) = [] := by
  unfold report
  split <;> rfl

/-- A run in another environment, if the tokens refer to no name that is bound differently there: it
ends in the same way, and what is reported differs at most in the single steps. -/
theorem run_within (m : Machine) {ts : List Token} {env : Environment} (tracing : Bool)
    (h : ∀ name, .reference name ∈ ts → env.get? name = m.env.get? name) :
    ∃ events, (m.within env tracing).run ts =
        ((m.run ts).1.within (env.setAll (Event.writes (m.run ts).2.1)) tracing, events,
          (m.run ts).2.2) ∧
      events.filter (!·.isStep) = (m.run ts).2.1.filter (!·.isStep) ∧
      (tracing = m.tracing → events = (m.run ts).2.1) := by
  induction ts generalizing m env with
  | nil => exact ⟨[], rfl, rfl, fun _ => rfl⟩
  | cons t ts ih =>
    have hstep := step_within m tracing fun name (heq : t = .reference name) =>
      h name (heq ▸ List.mem_cons_self)
    simp only [run, hstep]
    cases hm : m.step t with
    | error e => exact ⟨[], rfl, rfl, fun _ => rfl⟩
    | ok next =>
      obtain ⟨between, writes⟩ := next
      obtain ⟨henv, htracing⟩ := env_tracing_of_step hm
      -- Names that are bound alike stay so.
      have hbetween : ∀ name, .reference name ∈ ts →
          (env.setAll (Event.writes writes)).get? name = between.env.get? name := by
        intro name hname
        rw [henv]
        exact Environment.get?_setAll_congr (.inl (h name (List.mem_cons_of_mem t hname)))
      -- The rest of the run starts in an environment of its own.
      obtain ⟨events, hrun, hfilter, hsame⟩ := ih between hbetween
      simp only [Except.map, hrun]
      refine ⟨writes ++ (between.within (env.setAll (Event.writes writes)) tracing).report t ++
        events, ?_, ?_, ?_⟩
      · rw [Event.writes_append, Event.writes_append, writes_report, List.append_nil,
          Environment.setAll_append]
      · simp only [List.filter_append, filter_isStep_report, hfilter]
      · intro heq
        subst heq
        rw [hsame htracing.symm]
        simp only [report, within, htracing]
        rfl

/-! ### Evaluations -/

/-- Evaluations on two machines in environments that agree on the names to which the tokens refer.
What lies on the stacks, what other names are bound to and whether single steps are reported does
not matter: they have the same result and make the same bindings, and they report the same if they
both report single steps or both do not. -/
theorem eval_agree (m m' : Machine) {rpn : List Token}
    (h : ∀ name, .reference name ∈ rpn → m'.env.get? name = m.env.get? name) :
    (m'.eval rpn).result = (m.eval rpn).result ∧
      (m'.eval rpn).machine.env = m'.env.setAll (Event.writes (m.eval rpn).events) ∧
      (m'.eval rpn).events.filter (!·.isStep) = (m.eval rpn).events.filter (!·.isStep) ∧
      (m'.tracing = m.tracing → (m'.eval rpn).events = (m.eval rpn).events) := by
  obtain ⟨events, hrun, hfilter, hsame⟩ := run_within { m with stack := [] } m'.tracing h
  -- An evaluation starts with an empty stack, so nothing else of the second machine is left.
  have hrun' : ({ m' with stack := [] } : Machine).run rpn = _ := hrun
  simp only [eval, hrun']
  refine ⟨?_, rfl, ?_, fun htracing => congrArg (Event.evaluating rpn :: ·) (hsame htracing)⟩
  · rfl
  · exact congrArg (Event.evaluating rpn :: ·) hfilter

/-- Tokens that are evaluated by themselves have the result that they have on a machine in an
environment that agrees on what they refer to, and make the bindings that it reports. -/
theorem evaluate_eq_setAll (m : Machine) {rpn : List Token} {env : Environment}
    (h : ∀ name, .reference name ∈ rpn → env.get? name = m.env.get? name) :
    evaluate rpn env = ((m.eval rpn).result, env.setAll (Event.writes (m.eval rpn).events)) := by
  obtain ⟨hresult, henv, -⟩ := eval_agree m (start env false) h
  exact Prod.ext hresult henv

end Machine

/-! ### Texts and tokens -/

/-- Calculations of a text in environments that agree on the names to which it refers. -/
theorem calculate_agree (strictness : Strictness) (text : String) (tracing tracing' : Bool)
    {env env' : Environment}
    (h : ∀ tokens, Token.scan strictness text = .ok tokens →
      ∀ name, .reference name ∈ tokens → env'.get? name = env.get? name) :
    (calculate strictness tracing' text env').result =
        (calculate strictness tracing text env).result ∧
      (calculate strictness tracing' text env').env =
        env'.setAll (Event.writes (calculate strictness tracing text env).events) ∧
      (calculate strictness tracing' text env').events.filter (!·.isStep) =
        (calculate strictness tracing text env).events.filter (!·.isStep) ∧
      (tracing' = tracing → (calculate strictness tracing' text env').events =
        (calculate strictness tracing text env).events) := by
  cases hrpn : toPostfix strictness text with
  | error e =>
    -- Up to the postfix order the environment plays no part.
    rw [calculate_of_error hrpn, calculate_of_error hrpn, writes_prepare]
    exact ⟨rfl, rfl, rfl, fun _ => rfl⟩
  | ok rpn =>
    obtain ⟨tokens, hscan, -⟩ := toPostfix_eq_ok_iff.1 hrpn
    -- The postfix order refers to no other names than the text.
    obtain ⟨hresult, henv, hfilter, hevents⟩ :=
      Machine.eval_agree (.start env tracing) (.start env' tracing') fun name hname =>
        h tokens hscan name (mem_of_toPostfix hscan hrpn hname)
    rw [calculate_of_ok hrpn, calculate_of_ok hrpn]
    refine ⟨congrArg (Except.mapError Failure.eval) hresult, ?_, ?_, fun htracing =>
      congrArg ((prepare strictness text).2 ++ ·) (hevents htracing)⟩
    · rw [Event.writes_append, writes_prepare, List.nil_append]
      exact henv
    · rw [List.filter_append, List.filter_append, hfilter]

/-- The result of tokens depends on nothing but what the names are bound to that they refer to. In
two environments that agree on these, the result is the same, be it a value or an error, and the
same bindings are made in the same order. So names that are bound alike before are bound alike
afterwards, and so are names that are written. The environments may bind names to keys. -/
theorem evaluate_agree {rpn : List Token} {env env' : Environment}
    (h : ∀ name, .reference name ∈ rpn → env.get? name = env'.get? name) :
    ∃ result sets, evaluate rpn env = (result, env.setAll sets) ∧
      evaluate rpn env' = (result, env'.setAll sets) ∧
      (∀ tracing, ((Machine.start env tracing).eval rpn).events =
          ((Machine.start env' tracing).eval rpn).events ∧
        Event.writes ((Machine.start env tracing).eval rpn).events = sets) ∧
      ∀ name, (env.get? name = env'.get? name ∨ ∃ s ∈ sets, s.1 = name) →
        (evaluate rpn env).2.get? name = (evaluate rpn env').2.get? name := by
  -- Both environments are compared with the second one, where single steps are not reported.
  have henv := Machine.evaluate_eq_setAll (.start env' false) h
  have henv' : evaluate rpn env' = (_, env'.setAll _) :=
    Machine.evaluate_eq_setAll (.start env' false) fun _ _ => rfl
  refine ⟨_, _, henv, henv', fun tracing => ⟨?_, ?_⟩, fun name hname => ?_⟩
  · exact (Machine.eval_agree (.start env' tracing) (.start env tracing) h).2.2.2 rfl
  · have hquiet := (Machine.eval_agree (.start env' false) (.start env tracing) h).2.2.1
    rw [← Event.writes_filter_isStep, hquiet, Event.writes_filter_isStep]
  · rw [henv, henv']
    exact Environment.get?_setAll_congr hname

/-- The key that is bound to `K` says what is written. It does not matter what it was bound to
before. -/
theorem evaluate_agree_bound_key :
    let rpn := [.reference "K", .number 5, .function "SET"]
    let env := (Environment.standard.set "K" (.key "A")).set "A" (.bool true)
    let env' := (Environment.ofDefaults .empty).set "K" (.key "A")
    (∀ name, .reference name ∈ rpn → env.get? name = env'.get? name) ∧
      (evaluate rpn env).1 = (evaluate rpn env').1 ∧
      (evaluate rpn env).2.get? "A" = (evaluate rpn env').2.get? "A" ∧
      (evaluate rpn env').2.get? "A" = some (.number 5) := by
  intro rpn env env'
  have hrefers : ∀ name, .reference name ∈ rpn → env.get? name = env'.get? name := by
    intro name hname
    obtain rfl : name = "K" := by simpa [rpn] using hname
    decide +kernel
  -- The name written is not in the tokens but the value of `K`.
  have hwrites : Event.writes ((Machine.start env false).eval rpn).events = [("A", .number 5)] := by
    decide +kernel
  obtain ⟨result, sets, henv, henv', hevents, hnames⟩ := evaluate_agree hrefers
  obtain rfl : [("A", .number 5)] = sets := hwrites.symm.trans (hevents false).2
  have hwritten : ∃ s ∈ [("A", Value.number 5)], s.1 = "A" := ⟨_, List.mem_singleton_self _, rfl⟩
  refine ⟨hrefers, ?_, hnames "A" (.inr hwritten), by decide +kernel⟩
  rw [henv, henv']

end Calculator
