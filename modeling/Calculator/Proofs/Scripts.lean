import Calculator.Proofs.Transcript

/-!
# Scripts

A script is calculated line by line up to the first that fails. Blank lines and comments are passed
over, but they count when the failing line is named. What stands before the failing line is printed
as if it were all, and what stands behind it is neither calculated nor printed.

## Key results

- `Session.runLines_append_of_values`: lines that have values, in front of any others
- `Session.failsFirst_or_values`: a line is the first that fails, or all have values
- `Session.runLines_of_failsFirst`, `Session.runLines_of_values`: what both kinds of lines do
- `Session.runScript_cases`: scripts as wholes, and as what the program is asked for
-/

namespace Calculator

namespace Session

/-- The expressions in lines: what is neither blank nor a comment, without the blanks around it. -/
def expressions (lines : List String) : List String :=
  (lines.filter fun line => !isSkipped line).map Text.trim

/-- Whether the line at a position is the first that fails, and with this failure. The lines before
it are calculated one after the other, except for blank lines and comments. -/
structure FailsFirst (s : Session) (lines : List String) (position : Nat) (line : String)
    (e : Failure) : Prop where
  getElem?_eq : lines[position]? = some line
  isSkipped_eq : isSkipped line = false
  exists_values : ∃ values : List Value,
    s.results (expressions (lines.take position)) = values.map .ok
  execute_eq :
    ((s.after (expressions (lines.take position))).execute (Text.trim line)).1 = .error e

variable {s : Session} {lines : List String} {line : String}

/-! ### Expressions -/

/-- A blank line or comment adds no expression. -/
theorem expressions_cons_of_isSkipped (h : isSkipped line = true) (rest : List String) :
    expressions (line :: rest) = expressions rest := by
  simp only [expressions, List.filter_cons, h, Bool.not_true, Bool.false_eq_true, if_false]

/-- Any other line adds one, without the blanks around it. -/
theorem expressions_cons (h : isSkipped line = false) (rest : List String) :
    expressions (line :: rest) = Text.trim line :: expressions rest := by
  simp only [expressions, List.filter_cons, h, Bool.not_false, if_true, List.map_cons]

/-- It makes no difference to a session that blank lines and comments are passed over. -/
theorem after_expressions (s : Session) (lines : List String) :
    s.after (expressions lines) = s.after (lines.map Text.trim) := by
  induction lines generalizing s with
  | nil => rfl
  | cons line rest ih =>
    rw [List.map_cons, after_cons, ← ih]
    cases h : isSkipped line with
    | true => rw [expressions_cons_of_isSkipped h, ((inert_of_isSkipped h).execute s).2]
    | false => rw [expressions_cons h, after_cons]

theorem expressions_append (before rest : List String) :
    expressions (before ++ rest) = expressions before ++ expressions rest := by
  rw [expressions, List.filter_append, List.map_append]
  rfl

/-! ### Runs -/

/-- A line that fails is the last one. -/
theorem runLines_cons_of_error {e : Failure} (number : Nat) (hline : isSkipped line = false)
    (h : (s.execute (Text.trim line)).1 = .error e) (rest : List String) :
    let failing := s.execute (Text.trim line)
    runLines number s (line :: rest) =
      (failing.2.1, false, failing.2.2 ++
        [.err ("Error at line " ++ number.repr ++ ": " ++ e.message)]) := by
  intro failing
  have hfailing : s.execute (Text.trim line) = (.error e, failing.2) := Prod.ext h rfl
  rw [runLines, hline, if_neg Bool.false_ne_true, hfailing]

/-- Lines that have values are all calculated and printed, and then the lines behind them are. -/
theorem runLines_append_of_values {before : List String} {values : List Value} (number : Nat)
    (h : s.results (expressions before) = values.map .ok) (rest : List String) :
    runLines number s (before ++ rest) =
      let (final, succeeded, output) :=
        runLines (number + before.length) (s.after (expressions before)) rest
      (final, succeeded, s.transcript (expressions before) ++ output) := by
  induction before generalizing number s values with
  | nil => rfl
  | cons line before ih =>
    have hnumber : number + (line :: before).length = number + 1 + before.length := by
      rw [List.length_cons, Nat.add_right_comm, Nat.add_assoc]
    rw [List.cons_append, runLines, hnumber]
    cases hline : isSkipped line with
    -- A line that is passed over still counts for the numbers behind it.
    | true =>
      rw [expressions_cons_of_isSkipped hline] at h ⊢
      exact ih (number + 1) h
    | false =>
      rw [expressions_cons hline] at h ⊢
      obtain ⟨v, more, rfl, hv, hmore⟩ := exists_of_results_cons h
      have hexecute : s.execute (Text.trim line) = (.ok v, (s.execute (Text.trim line)).2) :=
        Prod.ext hv rfl
      rw [if_neg Bool.false_ne_true, hexecute, after_cons, transcript_cons, hv]
      simp only [ih (number + 1) hmore, List.append_assoc, List.cons_append]
      rfl

/-- A script without a failing line is printed and succeeds. It leaves the session that a startup
file with the same content would leave. -/
theorem runLines_of_values {values : List Value} (number : Nat)
    (h : s.results (expressions lines) = values.map .ok) :
    runLines number s lines =
      (s.after (expressions lines), true, s.transcript (expressions lines)) := by
  have hrun := runLines_append_of_values number h []
  rw [List.append_nil] at hrun
  rw [hrun]
  simp only [runLines, List.append_nil]

/-- A script stops at the first line that fails, and names it by its number. -/
theorem runLines_of_failsFirst {position : Nat} {e : Failure} (number : Nat)
    (h : s.FailsFirst lines position line e) :
    let before := expressions (lines.take position)
    let failing := (s.after before).execute (Text.trim line)
    runLines number s lines =
      (failing.2.1, false, s.transcript before ++ failing.2.2 ++
        [.err ("Error at line " ++ (number + position).repr ++ ": " ++ e.message)]) := by
  intro before failing
  obtain ⟨values, hvalues⟩ := h.exists_values
  obtain ⟨hposition, hline⟩ := List.getElem?_eq_some_iff.1 h.getElem?_eq
  -- All lines in front count for the number, those that are passed over among them.
  have hsplit : lines.take position ++ line :: lines.drop (position + 1) = lines := by
    rw [← hline, List.getElem_cons_drop, List.take_append_drop]
  have hrun := runLines_append_of_values number hvalues (line :: lines.drop (position + 1))
  rw [hsplit, List.length_take_of_le (Nat.le_of_lt hposition)] at hrun
  rw [hrun, runLines_cons_of_error _ h.isSkipped_eq h.execute_eq, List.append_assoc]

/-- On standard output are the values of the lines. -/
theorem stdout_runLines_of_values {values : List Value} (number : Nat)
    (h : s.results (expressions lines) = values.map .ok) :
    Output.stdout (runLines number s lines).2.2 =
      String.join (values.map fun v => s.shown v ++ "\n") := by
  rw [runLines_of_values number h]
  exact stdout_transcript_of_values h

/-- On standard output are the values of the lines before the first that fails. -/
theorem stdout_runLines_of_failsFirst {position : Nat} {e : Failure} (number : Nat)
    (h : s.FailsFirst lines position line e) :
    ∃ values : List Value, s.results (expressions (lines.take position)) = values.map .ok ∧
      Output.stdout (runLines number s lines).2.2 =
        String.join (values.map fun v => s.shown v ++ "\n") := by
  obtain ⟨values, hvalues⟩ := h.exists_values
  refine ⟨values, hvalues, ?_⟩
  rw [runLines_of_failsFirst number h, Output.stdout_append, Output.stdout_append, stdout_execute,
    stdout_transcript_of_values hvalues, String.append_empty]
  exact String.append_empty

/-! ### The first failure -/

/-- A line that is passed over in front of other lines does not matter for their failure. -/
theorem FailsFirst.cons_of_isSkipped {first : String} {position : Nat} {e : Failure}
    (h : s.FailsFirst lines position line e) (hfirst : isSkipped first = true) :
    s.FailsFirst (first :: lines) (position + 1) line e := by
  obtain ⟨hline, hskipped, hvalues, hfails⟩ := h
  rw [← expressions_cons_of_isSkipped hfirst, ← List.take_succ_cons] at hvalues hfails
  exact ⟨hline, hskipped, hvalues, hfails⟩

/-- A line that has a value is calculated before the lines behind it. -/
theorem FailsFirst.cons {first : String} {v : Value} {position : Nat} {e : Failure}
    (h : (s.execute (Text.trim first)).2.1.FailsFirst lines position line e)
    (hfirst : isSkipped first = false) (hv : (s.execute (Text.trim first)).1 = .ok v) :
    s.FailsFirst (first :: lines) (position + 1) line e := by
  obtain ⟨hline, hskipped, ⟨values, hvalues⟩, hfails⟩ := h
  refine ⟨hline, hskipped, ⟨v :: values, ?_⟩, ?_⟩
  · rw [List.take_succ_cons, expressions_cons hfirst, results_cons, hv, hvalues, List.map_cons]
  · rw [List.take_succ_cons, expressions_cons hfirst, after_cons, hfails]

/-- The failure of the first line that fails is among what comes of all the lines, so that these do
not all have values. -/
theorem FailsFirst.error_mem {position : Nat} {e : Failure}
    (h : s.FailsFirst lines position line e) : .error e ∈ s.results (expressions lines) := by
  obtain ⟨hposition, hline⟩ := List.getElem?_eq_some_iff.1 h.getElem?_eq
  -- The failing line stands between those before it and those behind it.
  rw [← List.take_append_drop position lines, List.drop_eq_getElem_cons hposition, hline,
    expressions_append, expressions_cons h.isSkipped_eq, results_append, results_cons, h.execute_eq]
  exact List.mem_append_right _ List.mem_cons_self

/-- Among lines there is a first that fails, or all of them have values. -/
theorem failsFirst_or_values (s : Session) (lines : List String) :
    (∃ position line e, s.FailsFirst lines position line e) ∨
      ∃ values : List Value, s.results (expressions lines) = values.map .ok := by
  induction lines generalizing s with
  | nil => exact .inr ⟨[], rfl⟩
  | cons first rest ih =>
    -- The first line is passed over, fails, or has a value and leaves the question to the rest.
    cases hfirst : isSkipped first with
    | true =>
      rw [expressions_cons_of_isSkipped hfirst]
      refine (ih s).imp_left ?_
      rintro ⟨position, line, e, h⟩
      exact ⟨position + 1, line, e, h.cons_of_isSkipped hfirst⟩
    | false =>
      cases hresult : (s.execute (Text.trim first)).1 with
      | error e => exact .inl ⟨0, first, e, rfl, hfirst, ⟨[], rfl⟩, hresult⟩
      | ok v =>
        rw [expressions_cons hfirst, results_cons, hresult]
        rcases ih (s.execute (Text.trim first)).2.1 with ⟨position, line, e, h⟩ | ⟨values, hvalues⟩
        · exact .inl ⟨position + 1, line, e, h.cons hfirst hresult⟩
        · exact .inr ⟨v :: values, by rw [hvalues, List.map_cons]⟩

end Session

/-! ### Scripts as wholes -/

/-- What the program does when it is asked for a script that can be read. -/
theorem Program.run_script {inv : Invocation} {around : Surroundings} {path content : String}
    (hhelp : inv.help = false) (hversion : inv.version = false) (hcommand : inv.command = none)
    (hscript : inv.script = some path) (hread : around.read path = .ok content) :
    run inv around =
      let opening := openSession inv around
      let (_, succeeded, output) := opening.1.runScript content
      (if succeeded then 0 else 1, opening.2 ++ output) := by
  simp only [run, hhelp, hversion, hcommand, hscript, runScript, hread, Bool.false_eq_true,
    if_false]

namespace Session

/-- A script with a line that fails is printed up to the first such line: the values of the lines
before it, blank lines and comments apart, and the failure with the number of its line, in which all
lines count. Nothing behind it is calculated, and the program fails. A script without such a line is
printed as a whole and leaves the session that a startup file with the same content would leave, and
the program succeeds. -/
theorem runScript_cases (s : Session) (content : String) :
    let lines := Text.lines content
    let run := s.runScript content
    (∀ position line e, s.FailsFirst lines position line e →
      let before := expressions (lines.take position)
      let failing := (s.after before).execute (Text.trim line)
      run = (failing.2.1, false, s.transcript before ++ failing.2.2 ++
          [.err ("Error at line " ++ (position + 1).repr ++ ": " ++ e.message)]) ∧
        ∃ values : List Value, s.results before = values.map .ok ∧
          Output.stdout run.2.2 = String.join (values.map fun v => s.shown v ++ "\n")) ∧
      ((¬ ∃ position line e, s.FailsFirst lines position line e) →
        run = (s.after (expressions lines), true, s.transcript (expressions lines)) ∧
          (∀ source, run.1 = (s.loadStartup source content).1) ∧
          ∃ values : List Value, s.results (expressions lines) = values.map .ok ∧
            Output.stdout run.2.2 = String.join (values.map fun v => s.shown v ++ "\n")) ∧
      ∀ inv around path, inv.help = false → inv.version = false → inv.command = none →
        inv.script = some path → around.read path = .ok content →
        (Program.openSession inv around).1 = s →
        Program.run inv around =
            (if run.2.1 then 0 else 1, (Program.openSession inv around).2 ++ run.2.2) ∧
          Output.stdout (Program.run inv around).2 = Output.stdout run.2.2 := by
  intro lines run
  refine ⟨fun position line e h => ?_, fun hnone => ?_, ?_⟩
  · intro before failing
    refine ⟨?_, stdout_runLines_of_failsFirst 1 h⟩
    -- Lines are numbered from one and positions from zero.
    rw [Nat.add_comm position]
    exact runLines_of_failsFirst 1 h
  · obtain ⟨values, hvalues⟩ := (s.failsFirst_or_values lines).resolve_left hnone
    have hrun : run = (s.after (expressions lines), true, s.transcript (expressions lines)) :=
      runLines_of_values 1 hvalues
    refine ⟨hrun, fun source => ?_, values, hvalues, stdout_runLines_of_values 1 hvalues⟩
    rw [hrun, loadStartup, (loadLines_eq source 1 s lines).1]
    exact after_expressions s lines
  · rintro inv around path hhelp hversion hcommand hscript hread rfl
    rw [Program.run_script hhelp hversion hcommand hscript hread]
    refine ⟨rfl, ?_⟩
    rw [Output.stdout_append, Program.stdout_openSession, String.empty_append]

/-- A comment and a blank line count, and what stands behind the failing line does not. -/
theorem runScript_cases_undefined_variable :
    let whole := "# Radius\nSET(#R, 2)\n\n $R * $R"
    let broken := "# Radius\nSET(#R, 2)\n\n$R * $R\n$R * $S\nSET(#S, 3)\n"
    let read : String → Except ReadError String
      | "whole" => .ok whole
      | "broken" => .ok broken
      | _ => .error .notFound
    let around : Surroundings := ⟨fun _ => none, read, [], false⟩
    let shown (printed : Nat × List Output) :=
      (printed.1, Output.stdout printed.2, Output.stderr printed.2)
    let run path := shown (Program.run (.ofArguments ["formula", path]) around)
    run "whole" = (0, "2\n4\n", "") ∧
      run "broken" = (1, "2\n4\n", "Error at line 5: Evaluation error: $S is undefined\n") := by
  intro whole broken read around shown run
  let s := Program.newSession .none fun _ => none
  constructor
  · obtain ⟨-, hwhole, hprogram⟩ := runScript_cases s whole
    have hnone : ¬ ∃ position line e, s.FailsFirst (Text.lines whole) position line e := by
      -- Both lines that are not passed over have values.
      rintro ⟨position, line, e, h⟩
      have hvalues : s.results (expressions (Text.lines whole)) =
          [.ok (.number 2), .ok (.number 4)] := by decide +kernel
      have hmem := h.error_mem
      rw [hvalues] at hmem
      simp at hmem
    obtain ⟨hrun, -⟩ :=
      hprogram (.ofArguments ["formula", "whole"]) around "whole" rfl rfl rfl rfl rfl rfl
    simp only [run]
    rw [hrun, (hwhole hnone).1]
    decide +kernel
  · obtain ⟨hbroken, -, hprogram⟩ := runScript_cases s broken
    have hfails : s.FailsFirst (Text.lines broken) 4 "$R * $S" (.eval (.undefinedVariable "S")) :=
      ⟨by decide +kernel, by decide +kernel, ⟨[.number 2, .number 4], by decide +kernel⟩,
        by decide +kernel⟩
    obtain ⟨hrun, -⟩ :=
      hprogram (.ofArguments ["formula", "broken"]) around "broken" rfl rfl rfl rfl rfl rfl
    simp only [run]
    rw [hrun, (hbroken 4 _ _ hfails).1]
    decide +kernel

end Session

end Calculator
