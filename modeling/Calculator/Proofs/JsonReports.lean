import Calculator.Proofs.Drivers
import Calculator.Proofs.OneLine

/-!
# Reports in JSON

When the command line asks for JSON, what comes of an expression is one line on standard output, a
failure no less than a value. Commands and dialogues report like that. So does a script up to its
first line that fails; that failure is worded on standard error instead, where its line is named.

## Key results

- `Session.stdout_render_of_json`: what is printed is the report
- `Invocation.json_addArguments`: when a command line asks for JSON
- `Session.interact_append`: a dialogue in two parts
- `Program.run_json`: commands, dialogues and scripts
-/

namespace Calculator

/-! ### Sessions -/

namespace Session

variable {s : Session} (hjson : s.json = true)
include hjson

/-- What is printed is the report, on one line. -/
theorem stdout_render_of_json (result : Except Failure Value) :
    Output.stdout [s.render result] = jsonReport result ++ "\n" := by
  cases result with
  | error e => simp [Output.stdout, render, jsonReport, hjson]
  | ok v => simp [Output.stdout, render, jsonReport, hjson]

/-- Values are printed as they are reported. -/
theorem shown_of_json (v : Value) : s.shown v = jsonReport (.ok v) := if_pos hjson

end Session

/-! ### Command lines -/

namespace Invocation

/-- A command line asks for JSON if the switch for it is there and not part of an expression. -/
theorem json_addArguments (inv : Invocation) (arguments : List String) :
    (inv.addArguments arguments).json =
      (inv.json || decide ("--json" ∈ arguments.takeWhile (· ≠ "-c"))) := by
  induction arguments generalizing inv with
  | nil => simp [addArguments]
  | cons argument rest ih =>
    -- A `-c` ends the switches, and any other argument is a switch or not.
    by_cases h : argument = "-c"
    · subst h
      rw [List.takeWhile_cons_of_neg (by simp)]
      cases rest with
      | nil => simp [addArguments, addArgument]
      | cons => simp [addArguments]
    · have hjson : (inv.addArgument argument).json =
          (inv.json || decide ("--json" ∈ [argument])) := congrArg json (addArgument_eq inv argument)
      rw [addArguments_cons inv fun heq => absurd heq h, ih, hjson,
        List.takeWhile_cons_of_pos (by simpa using h), Bool.or_assoc]
      simp

end Invocation

/-! ### Dialogues -/

namespace Session

/-- No line of a dialogue turns JSON on or off. -/
theorem json_foldl_answer (s : Session) (lines : List String) :
    (lines.foldl answer s).json = s.json := by
  induction lines generalizing s with
  | nil => rfl
  | cons line rest ih =>
    have hanswer : (s.answer line).json = s.json := by
      -- A line restores the bindings, shows something or is calculated.
      unfold answer
      split
      · rfl
      · split <;> rfl
    rw [List.foldl_cons, ih, hanswer]

/-- A dialogue goes on behind lines that do not end it. -/
theorem interact_append (s : Session) {before : List String}
    (h : ∀ line ∈ before, Text.trim line ∉ Command.stopWords) (rest : List String) :
    (s.interact (before ++ rest)).2 =
      (s.interact before).2 ++ ((before.foldl answer s).interact rest).2 := by
  induction before generalizing s with
  | nil => rfl
  | cons line before ih =>
    obtain ⟨hline, hbefore⟩ := List.forall_mem_cons.1 h
    rw [List.cons_append, interact_cons s hline, interact_cons s hline, ih _ hbefore,
      List.foldl_cons, List.append_assoc]

end Session

/-! ### The program -/

namespace Program

/-- Nor does a startup file. -/
theorem json_openSession (inv : Invocation) (around : Surroundings) :
    (openSession inv around).1.json = inv.json := by
  cases hstartup : startupText? inv around with
  | none =>
    rw [openSession_of_none hstartup]
    rfl
  | some content =>
    -- Its lines change the environment only.
    rw [openSession_of_some hstartup, Session.after_eq]
    rfl

section

variable {inv : Invocation} (hjson : inv.json = true) (around : Surroundings)
include hjson

/-- A command reports what comes of it. -/
theorem runCommand_json (text : String) :
    Output.stdout (runCommand inv around text).2 =
      jsonReport ((openSession inv around).1.execute text).1 ++ "\n" := by
  have hsession : ((openSession inv around).1.execute text).2.1.json = true :=
    (json_openSession inv around).trans hjson
  -- Neither the startup file nor the log prints anything on standard output.
  simp only [runCommand, Output.stdout_append, stdout_openSession, Session.stdout_execute,
    Session.stdout_render_of_json hsession, String.empty_append]

/-- A dialogue reports what comes of a line of it. -/
theorem runDialogue_json {before after : List String} {line : String}
    (hinput : Session.linesRead around.input = before ++ line :: after)
    (hline : ¬ Command.Answered (Text.trim line)) :
    let start := openDialogue inv around
    let here := before.foldl Session.answer start.1
    let next := (here.execute (Text.trim line)).2.1
    Output.stdout (runDialogue inv around).2 =
      Output.stdout (start.2 ++ (start.1.interact before).2) ++
        (jsonReport (here.execute (Text.trim line)).1 ++ "\n") ++
        Output.stdout (next.interact after).2 := by
  intro start here next
  -- The lines in front of this one are read, so none of them ends the dialogue.
  have hbefore : ∀ line ∈ before, Text.trim line ∉ Command.stopWords := by
    intro line hmem
    have hread : line ∈ Session.linesRead around.input :=
      hinput ▸ List.mem_append_left _ hmem
    simpa using List.mem_takeWhile_imp hread
  have hhere : here.json = true :=
    (Session.json_foldl_answer start.1 before).trans ((json_openSession inv around).trans hjson)
  have hrun : (runDialogue inv around).2 = start.2 ++ (start.1.interact around.input).2 := rfl
  -- The dialogue falls into the lines before this one, its log, its report and the lines after it.
  rw [hrun, ← Session.interact_linesRead, hinput, Session.interact_append _ hbefore,
    Session.interact_cons_of_not_answered here hline, ← List.append_assoc, Output.stdout_append,
    Output.stdout_append (here.execute _).2.2, Output.stdout_cons, Session.stdout_execute,
    Session.stdout_render_of_json hhere, String.empty_append]
  exact (String.append_assoc ..).symm

end

/-- With a switch for JSON on the command line, reports are lines on standard output. A command
reports what comes of its expression and a dialogue what comes of every line that is calculated,
with a startup file or without one. A script reports the values of its lines up to the first that
fails. Its failure is not reported: it comes last, in words and on standard error. -/
theorem run_json {program : String} {arguments : List String}
    (hjson : "--json" ∈ arguments.takeWhile (· ≠ "-c")) (around : Surroundings) :
    let inv := Invocation.ofArguments (program :: arguments)
    let opening := openSession inv around
    let printed := Output.stdout (run inv around).2
    inv.help = false → inv.version = false →
    (∀ result, Text.OneLine (jsonReport result)) ∧
      (∀ text, inv.command = some text →
        printed = jsonReport (opening.1.execute text).1 ++ "\n") ∧
      (inv.command = none → inv.script = none → ∀ before line after,
        Session.linesRead around.input = before ++ line :: after →
        ¬ Command.Answered (Text.trim line) →
        let start := openDialogue inv around
        let here := before.foldl Session.answer start.1
        let next := (here.execute (Text.trim line)).2.1
        printed = Output.stdout (start.2 ++ (start.1.interact before).2) ++
          (jsonReport (here.execute (Text.trim line)).1 ++ "\n") ++
          Output.stdout (next.interact after).2) ∧
      ∀ path content, inv.command = none → inv.script = some path →
        around.read path = .ok content →
        let lines := Text.lines content
        let reported (values : List Value) :=
          printed = String.join (values.map fun v => jsonReport (.ok v) ++ "\n")
        (∀ values, opening.1.results (Session.expressions lines) = values.map .ok →
          reported values) ∧
        ∀ position line e, opening.1.FailsFirst lines position line e →
          (run inv around).2.getLast? =
            some (.err ("Error at line " ++ (position + 1).repr ++ ": " ++ e.message)) ∧
          ∃ values : List Value,
            opening.1.results (Session.expressions (lines.take position)) = values.map .ok ∧
              reported values := by
  intro inv opening printed hhelp hversion
  -- The switch is read off the arguments in front of any `-c`.
  have hinv : inv.json = true := by
    rw [show inv = Invocation.none.addArguments arguments from rfl, Invocation.json_addArguments,
      decide_eq_true hjson, Bool.or_true]
  have hshown : opening.1.shown = fun v => jsonReport (.ok v) :=
    funext (Session.shown_of_json ((json_openSession inv around).trans hinv))
  refine ⟨oneLine_jsonReport, fun text hcommand => ?_, fun hcommand hscript => ?_, ?_⟩
  · have hrun : run inv around = runCommand inv around text := by
      simp only [run, hhelp, hversion, hcommand, Bool.false_eq_true, if_false]
    rw [← runCommand_json hinv around text, ← hrun]
  · intro before line after hinput hline
    have hrun : run inv around = runDialogue inv around :=
      run_eq_runDialogue (holdsDialogue_eq_true_iff.2 ⟨hhelp, hversion, hcommand, hscript⟩) around
    exact (congrArg (Output.stdout ·.2) hrun).trans (runDialogue_json hinv around hinput hline)
  · intro path content hcommand hscript hread lines reported
    have hrun : (run inv around).2 = opening.2 ++ (Session.runLines 1 opening.1 lines).2.2 :=
      congrArg Prod.snd (run_script hhelp hversion hcommand hscript hread)
    -- What precedes the script goes to standard error.
    have hprinted : printed = Output.stdout (Session.runLines 1 opening.1 lines).2.2 := by
      simp only [printed, hrun, Output.stdout_append]
      rw [stdout_openSession, String.empty_append]
    constructor
    · intro values hvalues
      rw [Session.stdout_runLines_of_values 1 hvalues, hshown] at hprinted
      exact hprinted
    · intro position line e hfails
      -- The last line printed is the wording of the failure, and it is not on standard output.
      obtain ⟨values, hvalues, hout⟩ := Session.stdout_runLines_of_failsFirst 1 hfails
      rw [hout, hshown] at hprinted
      refine ⟨?_, values, hvalues, hprinted⟩
      rw [hrun, Session.runLines_of_failsFirst 1 hfails, Nat.add_comm position, ← List.append_assoc,
        List.getLast?_concat]

/-- One failing line, as a command, in a dialogue and in a script. -/
theorem run_json_missing_operand :
    let lines := ["1 + 1", "1 +", "quit"]
    let read path := if path = "s" then .ok "1 + 1\n1 +\n" else .error ReadError.notFound
    let around : Surroundings := ⟨fun _ => none, read, lines, false⟩
    let printed arguments :=
      Output.stdout (run (.ofArguments ("formula" :: "--json" :: arguments)) around).2
    let failure := "\x7b\"error\":\"Stack underflow: +\",\"stage\":\"eval\"\x7d\n"
    printed ["-c", "1", "+"] = failure ∧
      printed [] = "\x7b\"value\":2.0\x7d\n" ++ failure ∧
      printed ["s"] = "\x7b\"value\":2.0\x7d\n" := by
  intro lines read around printed failure
  refine ⟨?_, ?_, ?_⟩
  · obtain ⟨-, hcommand, -⟩ := @run_json "formula" ["--json", "-c", "1", "+"] (by decide)
      around rfl rfl
    refine (hcommand "1 +" rfl).trans ?_
    decide +kernel
  · obtain ⟨-, -, hdialogue, -⟩ := @run_json "formula" ["--json"] (by decide) around rfl rfl
    have hanswered : ¬ Command.Answered (Text.trim "1 +") := by
      unfold Command.Answered
      decide +kernel
    refine (hdialogue rfl rfl ["1 + 1"] "1 +" [] (by decide +kernel) hanswered).trans ?_
    decide +kernel
  · obtain ⟨-, -, -, hscript⟩ := @run_json "formula" ["--json", "s"] (by decide) around rfl rfl
    obtain ⟨-, hfails⟩ := hscript "s" _ rfl rfl rfl
    have hbefore : (openSession (.ofArguments ["formula", "--json", "s"]) around).1.results
        (Session.expressions ((Text.lines "1 + 1\n1 +\n").take 1)) = [.number 2].map .ok := by
      decide +kernel
    obtain ⟨-, values, hvalues, hprinted⟩ := hfails 1 "1 +" (.eval (.stackUnderflow "+"))
      ⟨by decide +kernel, by decide +kernel, ⟨_, hbefore⟩, by decide +kernel⟩
    -- The values in front of the failure are determined, so what is printed is, too.
    obtain rfl : values = [.number 2] :=
      List.map_injective_iff.2 (fun _ _ => Except.ok.inj) (hvalues.symm.trans hbefore)
    refine hprinted.trans ?_
    decide +kernel

/-- A script of one line that fails. Its failure is not on standard output. -/
theorem run_json_script_failure :
    let inv := Invocation.ofArguments ["formula", "--json", "s"]
    let read path := if path = "s" then .ok "1 +\n" else .error ReadError.notFound
    let around : Surroundings := ⟨fun _ => none, read, [], false⟩
    let failure : Failure := .eval (.stackUnderflow "+")
    inv.json = true ∧
      (openSession inv around).1.FailsFirst (Text.lines "1 +\n") 0 "1 +" failure ∧
      run inv around = (1, [.err "Error at line 1: Evaluation error: Stack underflow: +"]) ∧
      Output.stdout (run inv around).2 ≠ jsonReport (.error failure) ++ "\n" := by
  intro inv read around failure
  have hrun : run inv around =
      (1, [.err "Error at line 1: Evaluation error: Stack underflow: +"]) := by decide +kernel
  refine ⟨rfl, ⟨by decide +kernel, by decide +kernel, ⟨[], by decide +kernel⟩, by decide +kernel⟩,
    hrun, ?_⟩
  rw [hrun]
  decide +kernel

end Program

end Calculator
