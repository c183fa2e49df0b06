import Calculator.Proofs.Inert
import Calculator.Proofs.TextLines

/-!
# Startup files

Loading a startup file calculates its lines one after the other and goes on after a failure. What is
passed over is inert, so it might as well be calculated, too: the environment and the number of
values are the same. Hence they depend only on the contents of the file, and not on where its line
breaks are of which kind or how many blank lines it has.

## Key results

- `loadLines_eq`: loading lines is calculating all of them
- `loadStartup_eq_contents`: only the contents of a file count
- `loadStartup_eq`: files as wholes, in two parts and with other line breaks
-/

namespace Calculator.Session

/-- The session after loading lines and the number of values come from calculating all the lines
without the blanks around them, those that are passed over among them. -/
theorem loadLines_eq (source : String) (number : Nat) (s : Session) (lines : List String) :
    (loadLines source number s lines).1 = s.after (lines.map Text.trim) ∧
      (loadLines source number s lines).2.1 =
        (s.results (lines.map Text.trim)).countP (·.isOk) := by
  induction lines generalizing number s with
  | nil => exact ⟨rfl, rfl⟩
  | cons line lines ih =>
    rw [List.map_cons, after_cons, results_cons, List.countP_cons]
    simp only [loadLines]
    split
    · -- A line that is passed over would have failed and changed nothing.
      rename_i hskipped
      obtain ⟨⟨e, he⟩, hsame⟩ := (inert_of_isSkipped hskipped).execute s
      rw [hsame, he]
      exact ih (number + 1) s
    · obtain ⟨hsession, hcount⟩ := ih (number + 1) (s.execute (Text.trim line)).2.1
      -- A line that has a value is counted; one that fails may still have bound names.
      split
      · rename_i v hv
        rw [hv]
        exact ⟨hsession, congrArg (· + 1) hcount⟩
      · rename_i e he
        rw [he]
        exact ⟨hsession, hcount⟩

/-- Only the contents of a startup file count. -/
theorem loadStartup_eq_contents (s : Session) (source content : String) :
    (s.loadStartup source content).1 = s.after (Text.contents content) ∧
      (s.loadStartup source content).2.1 =
        (s.results (Text.contents content)).countP (·.isOk) := by
  -- What is missing from the contents is blank.
  have hinert : ∀ line ∈ (Text.lines content).map Text.trim,
      decide (line ≠ "") = false → Inert line := by
    intro line _ hline
    obtain rfl : line = "" := by simpa using hline
    exact inert_of_blank nofun
  rw [Text.contents, after_filter s hinert, countP_results_filter s hinert]
  exact loadLines_eq source 1 s (Text.lines content)

/-- Loading a startup file calculates all its lines, without the blanks around them, and counts
those that have a value. It makes no difference that blank lines and comments are passed over,
because they are inert. A file in two parts with a line feed between them is loaded like one part
after the other, and carriage returns in front of the line feeds change nothing. -/
theorem loadStartup_eq (s : Session) (source : String) :
    (∀ content, (s.loadStartup source content).1 =
          s.after ((Text.lines content).map Text.trim) ∧
        (s.loadStartup source content).2.1 =
          (s.results ((Text.lines content).map Text.trim)).countP (·.isOk)) ∧
      (∀ line, isSkipped line = true → Inert (Text.trim line)) ∧
      (∀ first second,
        let whole := s.loadStartup source (first ++ "\n" ++ second)
        let start := s.loadStartup source first
        let rest := start.1.loadStartup source second
        whole.1 = rest.1 ∧ whole.2.1 = start.2.1 + rest.2.1) ∧
      ∀ content,
        let changed := s.loadStartup source (Text.withReturns content)
        let unchanged := s.loadStartup source content
        changed.1 = unchanged.1 ∧ changed.2.1 = unchanged.2.1 := by
  refine ⟨fun content => loadLines_eq source 1 s (Text.lines content), fun _ => inert_of_isSkipped,
    fun first second => ?_, fun content => ?_⟩
  · intro whole start rest
    -- The contents of the file are those of its first part and then of its second.
    obtain ⟨hwhole, hwholeCount⟩ := loadStartup_eq_contents s source (first ++ "\n" ++ second)
    obtain ⟨hstart, hstartCount⟩ := loadStartup_eq_contents s source first
    obtain ⟨hrest, hrestCount⟩ := loadStartup_eq_contents start.1 source second
    rw [Text.contents_append_newline] at hwhole hwholeCount
    constructor
    · rw [hwhole, hrest, hstart, after_append]
    · rw [hwholeCount, hstartCount, hrestCount, hstart, results_append, List.countP_append]
  · intro changed unchanged
    obtain ⟨hchanged, hchangedCount⟩ :=
      loadStartup_eq_contents s source (Text.withReturns content)
    obtain ⟨hunchanged, hunchangedCount⟩ := loadStartup_eq_contents s source content
    rw [Text.contents_withReturns] at hchanged hchangedCount
    constructor
    · rw [hchanged, hunchanged]
    · rw [hchangedCount, hunchangedCount]

/-- A comment, a blank line and a line that fails among two that bind names. -/
theorem loadStartup_eq_failing_line :
    let s : Session := ⟨.standard, .lenient, false, false, false, none⟩
    let content := " # sizes\nSET(#R, 3)\n\nSET(#D, $S)\nSET(#S, 2 * $R)"
    isSkipped " # sizes" = true ∧ Inert "# sizes" ∧
      (s.loadStartup "rc" content).2.1 = 2 ∧
      (s.loadStartup "rc" (Text.withReturns content)).2.1 = 2 ∧
      (s.loadStartup "rc" content).1.env.get? "S" = some (.number 6) := by
  intro s content
  obtain ⟨hall, hinert, -, hreturns⟩ := loadStartup_eq s "rc"
  have hskipped : isSkipped " # sizes" = true := by decide +kernel
  have hcount : (s.loadStartup "rc" content).2.1 = 2 := by
    rw [(hall content).2]
    decide +kernel
  refine ⟨hskipped, hinert " # sizes" hskipped, hcount, (hreturns content).2.trans hcount, ?_⟩
  rw [(hall content).1]
  decide +kernel

end Calculator.Session
