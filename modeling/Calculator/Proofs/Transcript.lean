import Calculator.Program
import Calculator.Proofs.ShownTokens
import Calculator.Proofs.Startup

/-!
# What sessions print

Lines that are calculated one after the other are printed one after the other: the log of each line
and what came of it (`Session.transcript`). The log goes to standard error, so standard output has
nothing but results, and failures as far as they are printed there. Nothing of a startup file is.

## Key results

- `Session.stdout_transcript`: standard output of lines that are calculated
- `Session.stdout_transcript_of_values`: and of lines that have values
- `Program.stdout_openSession`: standard output before the first line
-/

namespace Calculator

theorem Output.stdout_cons (o : Output) (output : List Output) :
    Output.stdout (o :: output) = Output.stdout [o] ++ Output.stdout output :=
  Output.stdout_append [o] output

namespace Session

/-- How a session prints a value. -/
def shown (s : Session) (v : Value) : String :=
  if s.json then v.resultJson else if s.color then v.coloredText else v.text

theorem stdout_render (s : Session) (v : Value) :
    Output.stdout [s.render (.ok v)] = s.shown v ++ "\n" := by
  simp [Output.stdout, render, shown]

/-- Nothing is printed of a calculation but its log. -/
theorem stdout_execute (s : Session) (line : String) : Output.stdout (s.execute line).2.2 = "" :=
  s.stdout_log _

/-! ### Lines one after the other -/

/-- What is printed of lines that are calculated one after the other, whatever comes of each. -/
def transcript (s : Session) : List String → List Output
  | [] => []
  | line :: rest =>
    (s.execute line).2.2 ++ s.render (s.execute line).1 :: transcript (s.execute line).2.1 rest

@[simp] theorem transcript_nil (s : Session) : s.transcript [] = [] := rfl

@[simp] theorem transcript_cons (s : Session) (line : String) (rest : List String) :
    s.transcript (line :: rest) =
      (s.execute line).2.2 ++ s.render (s.execute line).1 ::
        (s.execute line).2.1.transcript rest := rfl

/-- Lines change nothing in a session but its environment. -/
theorem after_eq (s : Session) (lines : List String) :
    s.after lines = { s with env := (s.after lines).env } := by
  induction lines generalizing s with
  | nil => rfl
  | cons line rest ih => exact ih (s.execute line).2.1

/-- On standard output is what came of the lines, and not the log. -/
theorem stdout_transcript (s : Session) (lines : List String) :
    Output.stdout (s.transcript lines) =
      String.join ((s.results lines).map fun result => Output.stdout [s.render result]) := by
  induction lines generalizing s with
  | nil => rfl
  | cons line rest ih =>
    rw [transcript_cons, results_cons, List.map_cons, String.join_cons, Output.stdout_append,
      Output.stdout_cons, stdout_execute, ih, String.empty_append]
    rfl

/-- Lines that have values are printed as their values, one on a line. -/
theorem stdout_transcript_of_values {s : Session} {lines : List String} {values : List Value}
    (h : s.results lines = values.map .ok) :
    Output.stdout (s.transcript lines) = String.join (values.map fun v => s.shown v ++ "\n") := by
  rw [stdout_transcript, h, List.map_map]
  exact congrArg (fun f => String.join (values.map f)) (funext fun v => s.stdout_render v)

/-- If lines have values, the first one has, and the others have in the session after it. -/
theorem exists_of_results_cons {s : Session} {line : String} {rest : List String}
    {values : List Value} (h : s.results (line :: rest) = values.map .ok) :
    ∃ v more, values = v :: more ∧ (s.execute line).1 = .ok v ∧
      (s.execute line).2.1.results rest = more.map .ok := by
  cases values with
  | nil => exact nomatch h
  | cons v more =>
    obtain ⟨hv, hmore⟩ := List.cons.inj h
    exact ⟨v, more, rfl, hv, hmore⟩

/-! ### Startup files -/

/-- Nothing of a startup file is printed on standard output. -/
theorem stdout_loadLines (source : String) (number : Nat) (s : Session) (lines : List String) :
    Output.stdout (loadLines source number s lines).2.2 = "" := by
  induction lines generalizing number s with
  | nil => rfl
  | cons line rest ih =>
    simp only [loadLines]
    split
    · exact ih (number + 1) s
    · have hrest := ih (number + 1) (s.execute (Text.trim line)).2.1
      split
      · rw [Output.stdout_append, stdout_execute, hrest, String.append_empty]
      · -- A line that fails is warned about, on standard error.
        rw [Output.stdout_append, stdout_execute, Output.stdout_cons, hrest]
        rfl

end Session

/-- Before the first line nothing is on standard output, with a startup file or without one. -/
theorem Program.stdout_openSession (inv : Invocation) (around : Surroundings) :
    Output.stdout (openSession inv around).2 = "" := by
  unfold openSession
  split
  · rfl
  · split
    · rfl
    · rw [Output.stdout_append, Session.stdout_log, Session.loadStartup, Session.stdout_loadLines]
      rfl

end Calculator
