import Calculator.Proofs.MachineRun
import Calculator.Proofs.Preparation
import Calculator.Proofs.TokenText
import Calculator.Session

/-!
# Tokens on the screen and in the log

A session shows the tokens of an expression and its postfix order on request, and the log has the
postfix order and the token of every step. All of these are tokens of the text, so what is shown can
be scanned again.

## Key results

- `stdout_showPostfix`: what the request for the postfix order prints
- `reportsOn_of_mem_calculate`: what the events of a calculation hold of the tokens of a text
- `scan_line`: lines of tokens can be scanned, and those that are shown are such lines
-/

namespace Calculator

/-! ### Where tokens are shown -/

theorem Output.stdout_append (xs ys : List Output) :
    Output.stdout (xs ++ ys) = Output.stdout xs ++ Output.stdout ys := by
  rw [Output.stdout, List.filterMap_append, String.join_append]
  rfl

/-- The log is on the other stream. -/
theorem Session.stdout_log (s : Session) (events : List Event) :
    Output.stdout (s.log events) = "" := by
  -- Whichever events are logged, each of them is a line on standard error.
  have herr : ∀ events : List Event,
      Output.stdout (events.map fun e => .err e.logLine) = "" := fun events => by
    induction events with
    | nil => rfl
    | cons e events ih => exact ih
  unfold Session.log
  split
  · rfl
  · exact herr events
  · exact herr _

/-- On request, the tokens of a text are printed and, if there is one, its postfix order. -/
theorem stdout_showPostfix {s : Session} {text : String} {tokens : List Token}
    (h : Token.scan s.strictness text = .ok tokens) :
    Output.stdout (s.showPostfix text) = "tokens: " ++ Token.line tokens ++ "\n" ++
      match toPostfix s.strictness text with
      | .ok rpn => "rpn:    " ++ Token.line rpn ++ "\n"
      | .error _ => "" := by
  have hout : ∀ line, Output.stdout [.out line] = line ++ "\n" := fun line => by
    simp [Output.stdout]
  have herr : ∀ line, Output.stdout [.err line] = "" := fun line => rfl
  simp only [Session.showPostfix, toPostfix, h, Output.stdout_append, Session.stdout_log, hout,
    String.empty_append, String.append_empty]
  cases (prepare s.strictness text).1 with
  | error e => rw [herr]
  | ok rpn => rw [hout]

/-- The events of calculating a text: apart from bindings, they are about its postfix order. -/
inductive ReportsOn (strictness : Strictness) (text : String) : Event → Prop
  | scanned (count : Nat) : ReportsOn strictness text (.scanned count)
  | write (name : String) (value : Value) : ReportsOn strictness text (.write name value)
  | converted {rpn : List Token} (h : toPostfix strictness text = .ok rpn) :
    ReportsOn strictness text (.converted rpn)
  | evaluating {rpn : List Token} (h : toPostfix strictness text = .ok rpn) :
    ReportsOn strictness text (.evaluating rpn)
  | step {rpn : List Token} (h : toPostfix strictness text = .ok rpn) {t : Token} (ht : t ∈ rpn)
    (depth : Nat) (top : List Value) : ReportsOn strictness text (.step t depth top)

section

variable {strictness : Strictness} {text : String} {e : Event}

/-- Before the evaluation, the number of tokens and the postfix order are reported. -/
theorem reportsOn_of_mem_prepare (h : e ∈ (prepare strictness text).2) :
    ReportsOn strictness text e := by
  unfold prepare at h
  split at h
  · exact nomatch h
  · rename_i tokens hscan
    split at h
    · exact List.mem_singleton.1 h ▸ .scanned _
    · rename_i rpn hrpn
      rcases List.mem_cons.1 h with rfl | h
      · exact .scanned _
      · obtain rfl := List.mem_singleton.1 h
        exact .converted (toPostfix_eq_ok_iff.2 ⟨tokens, hscan, hrpn⟩)

/-- All events of a calculation are about the postfix order of its text. -/
theorem reportsOn_of_mem_calculate {tracing : Bool} {env : Environment}
    (h : e ∈ (calculate strictness tracing text env).events) : ReportsOn strictness text e := by
  have hprepared : e ∈ (prepare strictness text).2 → ReportsOn strictness text e :=
    reportsOn_of_mem_prepare
  unfold calculate at h
  split at h
  · rename_i hprepare
    rw [hprepare] at hprepared
    exact hprepared h
  · rename_i rpn events hprepare
    have hrpn : toPostfix strictness text = .ok rpn := congrArg Prod.fst hprepare
    rw [hprepare] at hprepared
    rcases List.mem_append.1 h with h | h
    · exact hprepared h
    · rcases List.mem_cons.1 h with rfl | h
      · exact .evaluating hrpn
      · -- The machine reports bindings and steps.
        rcases Machine.eq_write_or_step_of_mem_run h with ⟨name, value, rfl⟩ | ⟨t, ht, _, _, rfl⟩
        · exact .write name value
        · exact .step hrpn ht _ _

/-- A field of an event that holds a postfix order holds that of the text. -/
theorem ReportsOn.rpn {shown : String} (h : ReportsOn strictness text e)
    (hshown : ("rpn", shown) ∈ e.fields) :
    ∃ rpn, toPostfix strictness text = .ok rpn ∧ shown = Token.line rpn := by
  cases h with
  | scanned count => simp [Event.fields] at hshown
  | write name value => simp [Event.fields] at hshown
  | step => simp [Event.fields] at hshown
  | converted hrpn | evaluating hrpn =>
    exact ⟨_, hrpn, congrArg Prod.snd (List.mem_singleton.1 hshown)⟩

/-- A field of an event that holds a token holds one of the postfix order. -/
theorem ReportsOn.token {shown : String} (h : ReportsOn strictness text e)
    (hshown : ("token", shown) ∈ e.fields) :
    ∃ rpn, toPostfix strictness text = .ok rpn ∧ ∃ t ∈ rpn, shown = t.text := by
  cases h with
  | scanned count => simp [Event.fields] at hshown
  | write name value => simp [Event.fields] at hshown
  | converted hrpn => simp [Event.fields] at hshown
  | evaluating hrpn => simp [Event.fields] at hshown
  | step hrpn ht => exact ⟨_, hrpn, _, ht, by simpa [Event.fields] using hshown⟩

end

/-! ### Scanning what is shown -/

/-- A line of tokens that can be written is read as these tokens. So is what a session shows of
the tokens of a text and of its postfix order, if the text has no number that is too large: the
lines on the screen, the postfix order in the log and the token of a step. -/
theorem scan_line (strictness : Strictness) :
    (∀ tokens : List Token, (∀ t ∈ tokens, t.Writable) →
      (strictness.identifiers = true → ∀ t ∈ tokens, t.hasSigil = false) →
      Token.scan strictness (Token.line tokens) = .ok tokens) ∧
    ∀ (session : Session) (text : String) (tokens : List Token),
      (strictness.identifiers = true → session.strictness.identifiers = true) →
      Token.scan session.strictness text = .ok tokens →
      (∀ x, .number x ∈ tokens → Binary64.isFinite x = true) →
      Output.stdout (session.showPostfix text) = ("tokens: " ++ Token.line tokens ++ "\n" ++
        match toPostfix session.strictness text with
        | .ok rpn => "rpn:    " ++ Token.line rpn ++ "\n"
        | .error _ => "") ∧
      Token.scan strictness (Token.line tokens) = .ok tokens ∧
      (∀ rpn, toPostfix session.strictness text = .ok rpn →
        Token.scan strictness (Token.line rpn) = .ok rpn) ∧
      ∀ tracing env, ∀ e ∈ (calculate session.strictness tracing text env).events, ∀ shown,
        (("rpn", shown) ∈ e.fields → ∃ rpn, toPostfix session.strictness text = .ok rpn ∧
          Token.scan strictness shown = .ok rpn) ∧
        (("token", shown) ∈ e.fields → ∃ rpn, toPostfix session.strictness text = .ok rpn ∧
          ∃ t ∈ rpn, Token.scan strictness shown = .ok [t]) := by
  refine ⟨fun tokens hwritable hsigil => Token.scanFrom_line 0 hwritable hsigil,
    fun session text tokens hstrict hscan hfinite => ?_⟩
  -- The postfix order has tokens of the text only, so what holds of those holds of it.
  have hmem : ∀ rpn, toPostfix session.strictness text = .ok rpn → ∀ t ∈ rpn, t ∈ tokens :=
    fun rpn hrpn t ht => mem_of_toPostfix hscan hrpn ht
  have hagain : ∀ ts : List Token, (∀ t ∈ ts, t ∈ tokens) →
      Token.scan strictness (Token.line ts) = .ok ts :=
    fun ts => Token.scan_line_of_scan hstrict hscan hfinite
  refine ⟨stdout_showPostfix hscan, hagain tokens fun _ => id,
    fun rpn hrpn => hagain rpn (hmem rpn hrpn), fun tracing env e he shown => ⟨?_, ?_⟩⟩
  · intro hshown
    obtain ⟨rpn, hrpn, rfl⟩ := (reportsOn_of_mem_calculate he).rpn hshown
    exact ⟨rpn, hrpn, hagain rpn (hmem rpn hrpn)⟩
  · intro hshown
    obtain ⟨rpn, hrpn, t, ht, rfl⟩ := (reportsOn_of_mem_calculate he).token hshown
    -- A single token is a line of its own.
    have hline : Token.line [t] = t.text := String.intercalate_singleton
    refine ⟨rpn, hrpn, t, ht, ?_⟩
    rw [← hline]
    exact hagain [t] (List.forall_mem_singleton.2 (hmem rpn hrpn t ht))

open Token Punct in
/-- A bare sigil and a name with sigils in it are read back, and so is `7.5`, which a strict session
shows for `007.50`. -/
theorem scan_line_leading_zeros :
    Token.scan .lenient (Token.line [number 0.1, reference "", operator .pow, key "A$#B"]) =
      .ok [number 0.1, reference "", operator .pow, key "A$#B"] ∧
    Output.stdout (Session.showPostfix ⟨.standard, .strict, false, false, false, none⟩
      "SET(#A, 007.50)") = "tokens: SET ( #A , 7.5 )\nrpn:    #A 7.5 SET\n" ∧
    Token.scan .strict "#A 7.5 SET" = .ok [key "A", number 7.5, function "SET"] := by
  have hscan : Token.scan .strict "SET(#A, 007.50)" = .ok [function "SET", punct leftParen,
    key "A", punct comma, number 7.5, punct rightParen] := by decide +kernel
  have hrpn : toPostfix .strict "SET(#A, 007.50)" =
    .ok [key "A", number 7.5, function "SET"] := by decide +kernel
  have hline : Token.line [key "A", number 7.5, function "SET"] = "#A 7.5 SET" := by
    decide +kernel
  have hfinite : ∀ x, number x ∈ [function "SET", punct leftParen, key "A", punct comma,
      number 7.5, punct rightParen] → Binary64.isFinite x = true := by
    intro x hx
    obtain rfl : x = 7.5 := by simpa using hx
    decide +kernel
  obtain ⟨hstdout, -, hagain, -⟩ := (scan_line .strict).2
    ⟨.standard, .strict, false, false, false, none⟩ "SET(#A, 007.50)" _ id hscan hfinite
  refine ⟨(scan_line .lenient).1 _ (by decide +kernel) (by decide), ?_, hline ▸ hagain _ hrpn⟩
  rw [hstdout]
  decide +kernel

end Calculator
