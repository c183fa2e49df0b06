import Calculator.Proofs.ScanVerdict
import Calculator.Proofs.Tracing
import Calculator.Text.Blank

/-!
# Texts that are no expressions

Blank lines, comments and commands are taken out before anything is calculated. No expression is
lost by this, because such a text would have no value and bind nothing, under all settings and in
all environments. It is called inert. A text is so if it has a character that may not stand in any
expression, if it consists of spaces, or if it begins with a sigil that has no name.

## Key results

- `inert_of_not_isAllowed`, `inert_of_blank`, `inert_of_bareKey`: reasons for which a text is inert
- `Inert.execute`: an inert line leaves a session as it is
- `inert_of_isSkipped`: blank lines and comments are inert
- `Session.after_filter`, `Session.countP_results_filter`: inert lines among others do not matter
-/

namespace Calculator

/-- Whether a text has no value and binds nothing, however it is calculated. -/
structure Inert (text : String) : Prop where
  fails : ∀ strictness tracing env, ∃ e, (calculate strictness tracing text env).result = .error e
  writes : ∀ strictness tracing env,
    Event.writes (calculate strictness tracing text env).events = []

variable {text : String}

namespace Inert

/-- An inert text leaves every environment as it is. -/
theorem env (h : Inert text) (strictness : Strictness) (tracing : Bool) (env : Environment) :
    (calculate strictness tracing text env).env = env := by
  rw [env_calculate, h.writes]
  rfl

/-- An inert line fails in a session, and leaves the session as it is. -/
theorem execute (h : Inert text) (s : Session) :
    (∃ e, (s.execute text).1 = .error e) ∧ (s.execute text).2.1 = s := by
  refine ⟨h.fails s.strictness s.tracing s.env, ?_⟩
  simp only [Session.execute, h.env]

end Inert

/-! ### Reasons -/

/-- Without a postfix order under any setting a text is inert. -/
theorem inert_of_toPostfix (h : ∀ strictness, ∃ e, toPostfix strictness text = .error e) :
    Inert text := by
  constructor
  · intro strictness tracing env
    obtain ⟨e, he⟩ := h strictness
    exact ⟨e, by rw [calculate_of_error he]⟩
  · intro strictness tracing env
    obtain ⟨e, he⟩ := h strictness
    rw [calculate_of_error he, writes_prepare]

/-- A text is inert if it has a character that may not stand in an expression. -/
theorem inert_of_not_isAllowed {c : Char} (hc : c ∈ text.toList)
    (h : Token.isAllowed c = false) : Inert text := by
  refine inert_of_toPostfix fun strictness => ?_
  cases hrpn : toPostfix strictness text with
  | error e => exact ⟨e, rfl⟩
  | ok rpn =>
    -- With a postfix order the text would have been scanned, and so have no such character.
    obtain ⟨tokens, hscan, -⟩ := toPostfix_eq_ok_iff.1 hrpn
    have hallowed := (Token.clean_none_iff.1 (Token.scan_ok_iff.1 ⟨tokens, hscan⟩)).1 c hc
    exact nomatch h.symm.trans hallowed

/-- There are no tokens in spaces. -/
theorem scan_spaces (strictness : Strictness) (h : ∀ c ∈ text.toList, c = ' ') :
    Token.scan strictness text = .ok [] := by
  -- The induction is over the characters, at any position.
  have hspaces : ∀ (cs : List Char) (position : Nat), (∀ c ∈ cs, c = ' ') →
      Token.scanFrom strictness.identifiers position cs = .ok [] := by
    intro cs
    induction cs with
    | nil => exact fun position _ => Token.scanFrom_nil _ position
    | cons c cs ih =>
      intro position h
      obtain ⟨rfl, hcs⟩ := List.forall_mem_cons.1 h
      rw [Token.scanFrom_space]
      exact ih (position + 1) hcs
  exact hspaces text.toList 0 h

theorem Postfix.ofInfix_nil (strictness : Strictness) : Postfix.ofInfix strictness [] = .ok [] := by
  obtain ⟨identifiers, parentheses⟩ := strictness
  cases parentheses <;> rfl

/-- Spaces are inert: there is nothing to evaluate. -/
theorem inert_of_spaces (h : ∀ c ∈ text.toList, c = ' ') : Inert text := by
  have hrpn : ∀ strictness, toPostfix strictness text = .ok [] := fun strictness =>
    toPostfix_eq_ok_iff.2 ⟨[], scan_spaces strictness h, Postfix.ofInfix_nil strictness⟩
  constructor
  · intro strictness tracing env
    exact ⟨.eval .emptyExpression, by rw [calculate_of_ok (hrpn strictness)]; rfl⟩
  · intro strictness tracing env
    rw [calculate_of_ok (hrpn strictness), Event.writes_append, writes_prepare]
    rfl

/-- Of the blanks, only the space may stand in an expression. -/
theorem isAllowed_eq_false_of_isBlank {c : Char} (h : Text.isBlank c = true) (hc : c ≠ ' ') :
    Token.isAllowed c = false := by
  refine Bool.eq_false_iff.2 fun hallowed => ?_
  simp only [Text.isBlank, Text.blankRanges, List.any_cons, List.any_nil, Bool.or_eq_true,
    Bool.and_eq_true, decide_eq_true_eq, Bool.false_eq_true, or_false] at h
  simp only [Token.isAllowed, Bool.or_eq_true, List.contains_iff_mem, List.mem_cons,
    List.not_mem_nil, or_false] at hallowed
  rcases hallowed with (hdigit | hupper) | hother
  · -- Digits, capitals and the fifteen other characters lie in no range of blanks but that of the
    -- space.
    have := isDigit_iff_toNat.1 hdigit
    omega
  · have := isUpper_iff_toNat.1 hupper
    omega
  · rcases hother with rfl | rfl | rfl | rfl | rfl | rfl | rfl | rfl | rfl | rfl | rfl | rfl | rfl |
      rfl | rfl
    all_goals first | exact hc rfl | exact absurd h (by decide)

/-- A blank text is inert, whatever blanks it consists of. -/
theorem inert_of_blank (h : ∀ c ∈ text.toList, Text.isBlank c = true) : Inert text := by
  -- A blank text that is not all spaces has a character that may not stand in an expression.
  by_cases hspaces : ∀ c ∈ text.toList, c = ' '
  · exact inert_of_spaces hspaces
  · obtain ⟨c, hnot⟩ := Classical.not_forall.1 hspaces
    obtain ⟨hc, hne⟩ := Classical.not_imp.1 hnot
    exact inert_of_not_isAllowed hc (isAllowed_eq_false_of_isBlank (h c hc) hne)

/-- A text is inert if it begins with a key that has no name. -/
theorem inert_of_bareKey {rest : List Char} (htext : text.toList = '#' :: rest)
    (hrest : ∀ c ∈ rest.head?, isNameChar c = false) : Inert text := by
  refine inert_of_toPostfix fun strictness => ?_
  cases hrpn : toPostfix strictness text with
  | error e => exact ⟨e, rfl⟩
  | ok rpn =>
    obtain ⟨tokens, hscan, hconvert⟩ := toPostfix_eq_ok_iff.1 hrpn
    -- The key is the first token, and the conversion stops at it.
    have hfirst : Token.scan strictness text =
        (.key "" :: ·) <$> Token.scanFrom strictness.identifiers 1 rest := by
      have hrun : ∀ d ∈ ([] : List Char), isNameChar d = true := nofun
      rw [Token.scan, htext]
      exact Token.scanFrom_name strictness.identifiers 0 rfl hrun hrest fun _ => nofun
    rw [hfirst] at hscan
    cases hbehind : Token.scanFrom strictness.identifiers 1 rest with
    | error e => rw [hbehind] at hscan; exact nomatch hscan
    | ok ts =>
      rw [hbehind] at hscan
      obtain rfl : .key "" :: ts = tokens := Except.ok.inj hscan
      obtain ⟨output, stack, hrun, -⟩ := Postfix.exists_of_ofInfix hconvert
      -- Without a name there is no first step.
      obtain ⟨_, _, _, hstep, -⟩ := Postfix.exists_of_run_cons hrun
      rw [Postfix.step_unnamed _ _ _ rfl] at hstep
      exact nomatch hstep

/-! ### Blank lines and comments -/

/-- What is passed over in startup files and scripts is inert. -/
theorem inert_of_isSkipped {line : String} (h : Session.isSkipped line = true) :
    Inert (Text.trim line) := by
  have htrim := Text.toList_trim line
  simp only [Session.isSkipped, Bool.or_eq_true, beq_iff_eq, List.isPrefixOf_iff_prefix] at h
  -- Blank, a lone `#`, or a comment, which has a space behind its `#`.
  rcases h with (hblank | hlone) | ⟨rest, hcomment⟩
  · exact inert_of_blank (by rw [htrim, hblank]; nofun)
  · exact inert_of_bareKey (htrim.trans hlone) nofun
  · refine inert_of_bareKey (htrim.trans hcomment.symm) fun c hc => ?_
    rw [← Option.some.inj hc]
    rfl

/-! ### Lines one after the other -/

namespace Session

/-- A session after lines that are calculated one after the other, whatever comes of each. -/
def after (s : Session) (lines : List String) : Session :=
  lines.foldl (fun s line => (s.execute line).2.1) s

/-- What comes of lines that are calculated one after the other. -/
def results (s : Session) : List String → List (Except Failure Value)
  | [] => []
  | line :: rest => (s.execute line).1 :: results (s.execute line).2.1 rest

@[simp] theorem after_nil (s : Session) : s.after [] = s := rfl

@[simp] theorem after_cons (s : Session) (line : String) (rest : List String) :
    s.after (line :: rest) = (s.execute line).2.1.after rest := rfl

@[simp] theorem results_nil (s : Session) : s.results [] = [] := rfl

@[simp] theorem results_cons (s : Session) (line : String) (rest : List String) :
    s.results (line :: rest) = (s.execute line).1 :: (s.execute line).2.1.results rest := rfl

theorem after_append (s : Session) (xs ys : List String) :
    s.after (xs ++ ys) = (s.after xs).after ys :=
  List.foldl_append

theorem results_append (s : Session) (xs ys : List String) :
    s.results (xs ++ ys) = s.results xs ++ (s.after xs).results ys := by
  induction xs generalizing s with
  | nil => rfl
  | cons line xs ih => simp [ih]

section

variable {p : String → Bool} {lines : List String} (s : Session)
  (h : ∀ line ∈ lines, p line = false → Inert line)
include h

/-- Lines that are inert change nothing. -/
theorem after_filter : s.after (lines.filter p) = s.after lines := by
  induction lines generalizing s with
  | nil => rfl
  | cons line lines ih =>
    obtain ⟨hline, hlines⟩ := List.forall_mem_cons.1 h
    -- A line that is left out is inert, and the session behind it is the one before it.
    cases hp : p line with
    | true => rw [List.filter_cons_of_pos hp, after_cons, after_cons, ih _ hlines]
    | false =>
      rw [List.filter_cons_of_neg (by simp [hp]), after_cons, ((hline hp).execute s).2, ih s hlines]

/-- Lines that are inert have no value. -/
theorem countP_results_filter :
    (s.results (lines.filter p)).countP (·.isOk) = (s.results lines).countP (·.isOk) := by
  induction lines generalizing s with
  | nil => rfl
  | cons line lines ih =>
    obtain ⟨hline, hlines⟩ := List.forall_mem_cons.1 h
    cases hp : p line with
    | true =>
      rw [List.filter_cons_of_pos hp, results_cons, results_cons, List.countP_cons,
        List.countP_cons, ih _ hlines]
    | false =>
      -- A line that is left out would not have been counted.
      obtain ⟨⟨e, he⟩, hsame⟩ := (hline hp).execute s
      rw [List.filter_cons_of_neg (by simp [hp]), results_cons, he, hsame, List.countP_cons,
        ih s hlines]
      rfl

end

end Session

end Calculator
