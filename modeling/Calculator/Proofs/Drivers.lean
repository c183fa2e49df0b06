import Calculator.Proofs.CommandLine
import Calculator.Proofs.Dialogue
import Calculator.Proofs.Scripts

/-!
# Scripts, dialogues, commands and startup files

The same lines mean the same in a script, in a dialogue, as single commands and in a startup file,
as long as each of them has a value. No such line is taken for a comment or for a command of the
dialogue, because those are inert, and what a line prints depends on the session in front of it
only. A command behind a startup file is calculated in the session that the file leaves.

## Key results

- `Session.stdout_runLines`, `Session.stdout_interact`: scripts and dialogues print the values
- `Session.getElem?_results`: a value comes from the session after the lines in front of it
- `Program.openSession_of_some`: the session that a startup file leaves
- `Program.run_lines`: scripts, dialogues and commands as wholes
-/

namespace Calculator

namespace Session

/-! ### Lines that have values -/

variable {s : Session} {lines : List String} {values : List Value}

/-- A line with a value is not inert. -/
theorem not_inert_of_execute {line : String} {v : Value} (h : (s.execute line).1 = .ok v) :
    ¬ Inert line := by
  intro hinert
  obtain ⟨⟨e, he⟩, -⟩ := hinert.execute s
  exact nomatch h.symm.trans he

/-- Lines that have values are neither blank nor comments. -/
theorem expressions_eq_self (htrim : ∀ line ∈ lines, Text.trim line = line)
    (h : s.results lines = values.map .ok) : expressions lines = lines := by
  induction lines generalizing s values with
  | nil => rfl
  | cons line rest ih =>
    obtain ⟨hline, hrest⟩ := List.forall_mem_cons.1 htrim
    obtain ⟨v, more, rfl, hv, hmore⟩ := exists_of_results_cons h
    -- Skipped lines are inert, and this one has a value.
    have hskipped : isSkipped line = false := Bool.eq_false_iff.2 fun hskipped =>
      not_inert_of_execute hv (hline ▸ inert_of_isSkipped hskipped)
    rw [expressions_cons hskipped, hline, ih hrest hmore]

/-- Lines of a script that have values are all calculated, and their values are printed. -/
theorem stdout_runLines (number : Nat) (htrim : ∀ line ∈ lines, Text.trim line = line)
    (h : s.results lines = values.map .ok) :
    (runLines number s lines).2.1 = true ∧
      Output.stdout (runLines number s lines).2.2 =
        String.join (values.map fun v => s.shown v ++ "\n") := by
  have hexpressions := expressions_eq_self htrim h
  rw [← hexpressions] at h
  exact ⟨by rw [runLines_of_values number h], stdout_runLines_of_values number h⟩

/-- A line that is no command and not blank is calculated, and the dialogue goes on behind it. -/
theorem interact_cons_of_not_answered (s : Session) {line : String}
    (h : ¬ Command.Answered (Text.trim line)) (rest : List String) :
    (s.interact (line :: rest)).2 =
      (s.execute (Text.trim line)).2.2 ++ s.render (s.execute (Text.trim line)).1 ::
        ((s.execute (Text.trim line)).2.1.interact rest).2 := by
  -- Being calculated, the line is none that ends the dialogue.
  rw [interact, Command.ofLine_of_not_answered h]
  exact List.append_assoc ..

/-- Lines of a dialogue that have values are all calculated, and their values are printed. -/
theorem stdout_interact (htrim : ∀ line ∈ lines, Text.trim line = line)
    (h : s.results lines = values.map .ok) :
    Output.stdout (s.interact lines).2 = String.join (values.map fun v => s.shown v ++ "\n") := by
  -- As all lines are calculated, the dialogue prints what the transcript says.
  have htranscript : (s.interact lines).2 = s.transcript lines := by
    induction lines generalizing s values with
    | nil => rfl
    | cons line rest ih =>
      obtain ⟨hline, hrest⟩ := List.forall_mem_cons.1 htrim
      obtain ⟨v, more, rfl, hv, hmore⟩ := exists_of_results_cons h
      -- What is answered without a calculation would have no value.
      have hanswered : ¬ Command.Answered (Text.trim line) := fun hanswered =>
        not_inert_of_execute hv hanswered.inert.1
      rw [interact_cons_of_not_answered s hanswered, hline, ih hrest hmore, transcript_cons]
  rw [htranscript, stdout_transcript_of_values h]

/-- A value comes from the session after the lines in front of it. -/
theorem getElem?_results {k : Nat} {line : String} (hline : lines[k]? = some line)
    (h : s.results lines = values.map .ok) :
    ∃ v, values[k]? = some v ∧ ((s.after (lines.take k)).execute line).1 = .ok v := by
  induction lines generalizing s values k with
  | nil => exact nomatch hline
  | cons first rest ih =>
    obtain ⟨v, more, rfl, hv, hmore⟩ := exists_of_results_cons h
    -- The first line is calculated at once, and the others are counted from behind it.
    cases k with
    | zero =>
      obtain rfl : first = line := Option.some.inj hline
      exact ⟨v, rfl, hv⟩
    | succ k => exact ih hline hmore

/-- Lines that have values are read back when they are written one below the other, with a line
feed behind the last one or without it. -/
theorem lines_of_subset (hlines : ∀ line ∈ lines, Text.trim line = line ∧ '\n' ∉ line.toList)
    (h : s.results lines = values.map .ok) {part : List String} (hsubset : part ⊆ lines) :
    Text.lines (String.join (part.map (· ++ "\n"))) = part ∧
      Text.lines ("\n".intercalate part) = part := by
  -- A trimmed line ends in no carriage return, so writing it adds no line break.
  have hbreak : ∀ line ∈ part, '\n' ∉ line.toList ∧ line.toList.getLast? ≠ some '\r' := by
    intro line hmem
    obtain ⟨htrim, hfeed⟩ := hlines line (hsubset hmem)
    have hchars : Text.trimChars line.toList = line.toList :=
      (Text.toList_trim line).symm.trans (congrArg String.toList htrim)
    refine ⟨hfeed, fun hlast => ?_⟩
    exact absurd (Text.isBlank_getLast_of_trimChars hchars hlast) (by decide)
  -- The last line has a value, so it is not empty.
  have hlast : part.getLast? ≠ some "" := by
    intro hlast
    obtain ⟨i, hi⟩ := List.mem_iff_getElem?.1 (hsubset (List.mem_of_getLast? hlast))
    obtain ⟨v, -, hv⟩ := getElem?_results hi h
    exact not_inert_of_execute hv (inert_of_blank nofun)
  exact ⟨Text.lines_join hbreak, Text.lines_intercalate hbreak hlast⟩

/-- The log has no influence on what comes of lines. -/
theorem results_log? (level? : Option Level) (s : Session) (lines : List String) :
    ({ s with log? := level? } : Session).results lines = s.results lines := by
  induction lines generalizing s with
  | nil => rfl
  | cons line rest ih => exact congrArg _ (ih (s.execute line).2.1)

/-- Lines keep the way in which a session prints values. -/
theorem shown_after (s : Session) (lines : List String) : (s.after lines).shown = s.shown := by
  rw [after_eq]
  rfl

end Session

/-! ### Arguments -/

namespace Invocation

/-- How a value is printed, unless it is in color. -/
def shown (inv : Invocation) (v : Value) : String := if inv.json then v.resultJson else v.text

end Invocation

/-! ### The program -/

namespace Program

/-- The text of the startup file, if there is one. -/
def startupText? (inv : Invocation) (around : Surroundings) : Option String :=
  if inv.noStartup then none
  else (startupPath? around.lookup).bind fun path => (around.read path).toOption

/-- A session with the ordinary bindings under a strictness, as a command line asks for. -/
def plainSession (inv : Invocation) (strictness : Strictness) : Session :=
  ⟨.standard, strictness, inv.json, inv.trace, false, none⟩

variable {inv : Invocation} {around : Surroundings}

/-- Without a startup file the session is as the command line sets it up. -/
theorem openSession_of_none (h : startupText? inv around = none) :
    openSession inv around = (newSession inv around.lookup, []) := by
  unfold startupText? at h
  unfold openSession
  split
  · rfl
  · -- There is a path, but nothing could be read from it.
    rename_i path hpath
    split
    · rfl
    · rename_i content hcontent
      split at hpath
      · exact nomatch hpath
      · rename_i hload
        rw [if_neg hload, hpath, Option.bind_some, hcontent] at h
        exact nomatch h

/-- The session that a startup file leaves. -/
theorem openSession_of_some {content : String} (h : startupText? inv around = some content) :
    (openSession inv around).1 =
      (newSession inv around.lookup).after ((Text.lines content).map Text.trim) := by
  unfold startupText? at h
  split at h
  · exact nomatch h
  · rename_i hload
    obtain ⟨path, hpath, hread⟩ := Option.bind_eq_some_iff.1 h
    -- A text was read, so reading did not fail.
    have hcontent : around.read path = .ok content := by
      cases hresult : around.read path with
      | error e => rw [hresult] at hread; exact nomatch hread
      | ok text =>
        rw [hresult] at hread
        exact congrArg Except.ok (Option.some.inj hread)
    simp only [openSession, if_neg hload, hpath, hcontent]
    exact (Session.loadLines_eq path 1 _ (Text.lines content)).1

/-- A session as the command line sets it up differs from the plain one in its log only. -/
theorem newSession_eq {lookup : String → Option String} {strictness : Strictness}
    (h : (newSession inv lookup).strictness = strictness) :
    newSession inv lookup =
      { plainSession inv strictness with log? := (newSession inv lookup).log? } := by
  subst h
  rfl

/-- A new session prints values as its command line asks for. -/
theorem shown_newSession (inv : Invocation) (lookup : String → Option String) (v : Value) :
    (newSession inv lookup).shown v = inv.shown v := rfl

section

variable {strictness : Strictness} {lines : List String} {values : List Value}
  (hstrictness : (newSession inv around.lookup).strictness = strictness)
  (htrim : ∀ line ∈ lines, Text.trim line = line)
  (hvalues : (plainSession inv strictness).results lines = values.map .ok)
include hstrictness hvalues

/-- Lines have the same values in a new session as in the plain one. -/
theorem results_newSession : (newSession inv around.lookup).results lines = values.map .ok := by
  rw [newSession_eq hstrictness, Session.results_log?, hvalues]

include htrim

/-- A script whose lines have values prints these and succeeds. -/
theorem runScript_lines (hstartup : startupText? inv around = none) {path content : String}
    (hread : around.read path = .ok content) (hcontent : Text.lines content = lines) :
    (runScript inv around path).1 = 0 ∧
      Output.stdout (runScript inv around path).2 =
        String.join (values.map fun v => inv.shown v ++ "\n") := by
  have hresults := results_newSession hstrictness hvalues
  obtain ⟨hsucceeded, hout⟩ := Session.stdout_runLines 1 htrim hresults
  -- The session is opened without output, and the script runs to its end.
  simp only [runScript, hread, openSession_of_none hstartup, Session.runScript, hcontent,
    hsucceeded, List.nil_append, if_true, true_and]
  exact hout

/-- A dialogue whose lines have values prints these and succeeds. -/
theorem runDialogue_lines (hstartup : startupText? inv around = none)
    (hbanner : around.lookup "FORMULA_BANNER" = none) (hterminal : around.isTerminal = false)
    (hinput : around.input = lines) :
    (runDialogue inv around).1 = 0 ∧
      Output.stdout (runDialogue inv around).2 =
        String.join (values.map fun v => inv.shown v ++ "\n") := by
  have hresults := results_newSession hstrictness hvalues
  -- Without a terminal there is no color, and without a banner no greeting.
  have hopen : openDialogue inv around = (newSession inv around.lookup, []) := by
    simp only [openDialogue, openSession_of_none hstartup, hbanner, hterminal, Bool.and_false]
    rfl
  refine ⟨rfl, ?_⟩
  rw [runDialogue, hopen, hinput]
  exact Session.stdout_interact htrim hresults

/-- A command behind a startup file with the lines in front of it prints its value and succeeds. -/
theorem runCommand_line {k : Nat} {line content : String} (hline : lines[k]? = some line)
    (hstartup : startupText? inv around = some content)
    (hcontent : Text.lines content = lines.take k) :
    (runCommand inv around line).1 = 0 ∧
      (values.map fun v => inv.shown v ++ "\n")[k]? =
        some (Output.stdout (runCommand inv around line).2) := by
  have hresults := results_newSession hstrictness hvalues
  obtain ⟨v, hv, hexecute⟩ := Session.getElem?_results hline hresults
  have hsession := openSession_of_some hstartup
  -- The lines of the startup file are trimmed already.
  have hbefore : (lines.take k).map Text.trim = lines.take k := by
    rw [List.map_congr_left fun line hmem => htrim line (List.mem_of_mem_take hmem), List.map_id']
  rw [hcontent, hbefore] at hsession
  -- The startup file leaves the session in which the line has its value.
  have hresult : ((openSession inv around).1.execute line).1 = .ok v := hsession ▸ hexecute
  have hshown : ((openSession inv around).1.execute line).2.1.shown v = inv.shown v := by
    rw [hsession, ← shown_newSession inv around.lookup]
    exact congrFun (Session.shown_after _ _) v
  constructor
  · simp only [runCommand, hresult]
    rfl
  · simp only [runCommand, hresult, Output.stdout_append, stdout_openSession,
      Session.stdout_execute, Session.stdout_render, hshown, List.getElem?_map, hv,
      Option.map_some, String.empty_append]

end

/-- Lines that have values can be written one below the other, with a line feed behind the last one
or without it. As a script and as a dialogue they print the same, one value on a line, and succeed.
So does each line as a command, if the lines in front of it are in a startup file. -/
theorem run_lines {program : String} {switches lines : List String} {values : List Value}
    {strictness : Strictness} (hswitches : "-c" ∉ switches)
    (hdialogue : holdsDialogue (.ofArguments (program :: switches)) = true)
    (hlines : ∀ line ∈ lines, Text.trim line = line ∧ '\n' ∉ line.toList)
    (hvalues : (plainSession (.ofArguments (program :: switches)) strictness).results lines =
      values.map .ok) :
    let inv := Invocation.ofArguments (program :: switches)
    let run more around := run (.ofArguments (program :: switches ++ more)) around
    let shown := values.map fun v => inv.shown v ++ "\n"
    (∀ k, Text.lines (String.join ((lines.take k).map (· ++ "\n"))) = lines.take k ∧
        Text.lines ("\n".intercalate (lines.take k)) = lines.take k) ∧
      ∀ around, (newSession inv around.lookup).strictness = strictness →
        (startupText? inv around = none →
          (∀ path content, path.toList.head? ≠ some '-' → around.read path = .ok content →
            Text.lines content = lines →
            (run [path] around).1 = 0 ∧
              Output.stdout (run [path] around).2 = String.join shown) ∧
          (around.lookup "FORMULA_BANNER" = none → around.isTerminal = false →
            around.input = lines →
            (run [] around).1 = 0 ∧ Output.stdout (run [] around).2 = String.join shown)) ∧
        ∀ k line content, lines[k]? = some line → startupText? inv around = some content →
          Text.lines content = lines.take k →
          (run ["-c", line] around).1 = 0 ∧
            shown[k]? = some (Output.stdout (run ["-c", line] around).2) := by
  intro inv run shown
  have htrim : ∀ line ∈ lines, Text.trim line = line := fun line hmem => (hlines line hmem).1
  -- The switches hold no expression, so more arguments are added to what they ask for.
  have hinv : ∀ more,
      Invocation.ofArguments (program :: switches ++ more) = inv.addArguments more :=
    Invocation.addArguments_append .none hswitches
  refine ⟨fun k => ?_, fun around hstrictness => ⟨fun hstartup => ⟨?_, ?_⟩, ?_⟩⟩
  · exact Session.lines_of_subset hlines hvalues (List.take_subset k lines)
  · intro path content hpath hread hcontent
    -- The path makes a script of what would have been a dialogue.
    have hrun : run [path] around = runScript { inv with script := some path } around path := by
      rw [← run_eq_runScript hdialogue, ← Invocation.addArguments_path inv hpath]
      exact congrArg (Program.run · around) (hinv [path])
    rw [hrun]
    exact runScript_lines hstrictness htrim hvalues hstartup hread hcontent
  · intro hbanner hterminal hinput
    have hrun : run [] around = runDialogue inv around := by
      rw [← run_eq_runDialogue hdialogue]
      exact congrArg (Program.run · around) (hinv [])
    rw [hrun]
    exact runDialogue_lines hstrictness htrim hvalues hstartup hbanner hterminal hinput
  · intro k line content hline hstartup hcontent
    -- The expression makes a command of it.
    have hrun : run ["-c", line] around =
        runCommand { inv with command := some line } around line := by
      rw [← run_eq_runCommand hdialogue]
      exact congrArg (Program.run · around) (hinv ["-c", line])
    rw [hrun]
    exact runCommand_line hstrictness htrim hvalues hline hstartup hcontent

/-- A binding, a use of it and keys, which are compared, as JSON. -/
theorem run_lines_json :
    let lines := ["SET(#A, 2)", "$A * 3", "#A = #B"]
    let lookup name := if name = "FORMULA_RC" then some "rc" else none
    let read : String → Except ReadError String
      | "rc" => .ok "SET(#A, 2)\n$A * 3"
      | "s" => .ok "SET(#A, 2)\n$A * 3\n#A = #B\n"
      | _ => .error .notFound
    let around : Surroundings := ⟨fun _ => none, read, lines, false⟩
    let run arguments around :=
      let (status, output) := Program.run (.ofArguments ("formula" :: "--json" :: arguments)) around
      (status, Output.stdout output)
    run ["s"] around =
        (0, "\x7b\"value\":2.0\x7d\n\x7b\"value\":6.0\x7d\n\x7b\"value\":false\x7d\n") ∧
      run [] around = run ["s"] around ∧
      run ["-c", "#A = #B"] { around with lookup := lookup } =
        (0, "\x7b\"value\":false\x7d\n") := by
  intro lines lookup read around run
  have hlines : ∀ line ∈ lines, Text.trim line = line ∧ '\n' ∉ line.toList := by decide +kernel
  have hvalues : (plainSession (.ofArguments ["formula", "--json"]) .lenient).results lines =
      [.number 2, .number 6, .bool false].map .ok := by decide +kernel
  obtain ⟨-, hall⟩ := run_lines (by decide) rfl hlines hvalues
  obtain ⟨hwithout, -⟩ := hall around rfl
  obtain ⟨hscript, hdialogue⟩ := hwithout rfl
  obtain ⟨hstatus, hout⟩ := hscript "s" _ (by decide) rfl (by decide +kernel)
  obtain ⟨hstatus', hout'⟩ := hdialogue rfl rfl rfl
  obtain ⟨hstatus'', hout''⟩ := (hall { around with lookup := lookup } (by decide +kernel)).2 2
    "#A = #B" "SET(#A, 2)\n$A * 3" rfl (by decide +kernel) (by decide +kernel)
  -- The values are printed as JSON, one on a line.
  have hprinted : run ["s"] around =
      (0, "\x7b\"value\":2.0\x7d\n\x7b\"value\":6.0\x7d\n\x7b\"value\":false\x7d\n") := by
    refine Prod.ext hstatus (hout.trans ?_)
    decide +kernel
  refine ⟨hprinted, Prod.ext (hstatus'.trans hstatus.symm) (hout'.trans hout.symm),
    Prod.ext hstatus'' (Option.some.inj (hout''.symm.trans ?_))⟩
  decide +kernel

end Program

end Calculator
