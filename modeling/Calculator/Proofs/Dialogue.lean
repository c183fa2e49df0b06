import Calculator.Program
import Calculator.Proofs.Inert
import Mathlib.Data.List.TakeWhile

/-!
# Dialogues

A dialogue reads its lines up to the first that ends it. What it does to a session is the sum of
what the single lines do: two commands restore the bindings of the start, the other commands and
blank lines change nothing, and any further line is calculated. A line that is answered without a
calculation would have failed as an expression, so no expression is out of reach.

## Key results

- `Command.says_iff_takeWhile`: a command is known by the characters before the first space
- `Command.Answered.inert`: what is answered without a calculation is no expression
- `Session.perform_ofLine`: what a line does to a session
- `Session.interact_eq_foldl`: dialogues as wholes
-/

namespace Calculator

/-! ### Words of commands -/

namespace Command

/-- Whether a text is a word, alone or with a space and anything behind it. -/
def Says (word text : String) : Prop := text = word ∨ ∃ rest, text = word ++ " " ++ rest

instance (word text : String) : Decidable (Says word text) :=
  decidable_of_iff (text = word ∨ (word ++ " ").toList <+: text.toList) <| or_congr_right <| by
    constructor
    · rintro ⟨rest, hrest⟩
      exact ⟨String.ofList rest, by rw [← String.toList_inj, ← hrest]; simp⟩
    · rintro ⟨rest, rfl⟩
      exact ⟨rest.toList, by simp⟩

/-- The words that end a dialogue, if nothing stands behind them. -/
def stopWords : List String := ["exit", "quit"]

/-- The words that restore the bindings of the start. -/
def resetWords : List String := [".reset", ".r"]

/-- The words that only show something. -/
def showWords : List String := [".help", ".h", ".env", ".e", ".rpn"]

/-- Whether a text between blanks is answered in a dialogue without a calculation. -/
def Answered (text : String) : Prop :=
  text = "" ∨ text ∈ stopWords ∨ ∃ word ∈ resetWords ++ showWords, Says word text

variable {word text : String}

/-- A command is known by the characters before the first space. -/
theorem says_iff_takeWhile (hword : ' ' ∉ word.toList) :
    Says word text ↔ String.ofList (text.toList.takeWhile (· ≠ ' ')) = word := by
  -- All characters of the word are taken, since none of them is a space.
  have hall : ∀ c ∈ word.toList, decide (c ≠ ' ') = true := fun c hc =>
    decide_eq_true fun heq => hword (heq ▸ hc)
  constructor
  · rintro (rfl | ⟨rest, rfl⟩)
    · rw [List.takeWhile_eq_self_iff.2 hall, String.ofList_toList]
    · rw [String.toList_append, String.toList_append, List.append_assoc,
        List.takeWhile_append_of_pos hall, show " ".toList = [' '] from rfl]
      simp
  · rintro rfl
    have hsplit := List.takeWhile_append_dropWhile (p := (· ≠ ' ')) (l := text.toList)
    -- What stands behind the word is nothing, or it begins with a space.
    cases hbehind : text.toList.dropWhile (· ≠ ' ') with
    | nil =>
      rw [hbehind, List.append_nil] at hsplit
      exact .inl (by rw [hsplit, String.ofList_toList])
    | cons c rest =>
      have hspace : decide (c ≠ ' ') = false := by
        have hhead := List.head?_dropWhile_not (· ≠ ' ') text.toList
        rwa [hbehind] at hhead
      obtain rfl : c = ' ' := by simpa using hspace
      rw [hbehind] at hsplit
      refine .inr ⟨String.ofList rest, String.toList_inj.1 ?_⟩
      calc text.toList = text.toList.takeWhile (· ≠ ' ') ++ ' ' :: rest := hsplit.symm
        _ = _ := by simp

/-- The characters of a command are those of the text that says it, among others. -/
theorem Says.subset (h : Says word text) : word.toList ⊆ text.toList := by
  rcases h with rfl | ⟨rest, rfl⟩
  · exact fun _ hc => hc
  · rw [String.append_assoc, String.toList_append]
    exact List.subset_append_left _ _

/-- Words of commands are in small letters, which do not stand in expressions. -/
theorem exists_not_isAllowed (h : word ∈ stopWords ++ (resetWords ++ showWords)) :
    ∃ c ∈ word.toList, Token.isAllowed c = false := by
  have hany : word.toList.any (!Token.isAllowed ·) = true := by
    -- There are nine words to look at.
    revert word
    decide +kernel
  simpa using hany

/-- What is answered in a dialogue without a calculation is no expression, with the blanks around
it or without them. -/
theorem Answered.inert {line : String} (h : Answered (Text.trim line)) :
    Inert line ∧ Inert (Text.trim line) := by
  rcases h with hblank | hwords
  · -- A blank line has no tokens, and fails for want of them.
    have hnil : Text.trimChars line.toList = [] := String.ofList_eq_empty_iff.1 hblank
    exact ⟨inert_of_blank fun c => Text.isBlank_of_trimChars_eq_nil hnil,
      hblank ▸ inert_of_blank nofun⟩
  · -- A command fails at the first small letter, before anything is evaluated.
    obtain ⟨word, hmem, hsays⟩ : ∃ word ∈ stopWords ++ (resetWords ++ showWords),
        Says word (Text.trim line) := by
      rcases hwords with hstop | ⟨word, hword, hsays⟩
      · exact ⟨_, List.mem_append_left _ hstop, .inl rfl⟩
      · exact ⟨word, List.mem_append_right _ hword, hsays⟩
    obtain ⟨c, hc, hallowed⟩ := exists_not_isAllowed hmem
    have htrim : c ∈ (Text.trim line).toList := hsays.subset hc
    have hline : c ∈ line.toList :=
      (Text.trimChars_sublist line.toList).subset (Text.toList_trim line ▸ htrim)
    exact ⟨inert_of_not_isAllowed hline hallowed, inert_of_not_isAllowed htrim hallowed⟩

end Command

/-! ### What lines do -/

namespace Session

open Command

/-- What a line of a dialogue that does not end it does to a session. -/
def answer (s : Session) (line : String) : Session :=
  if ∃ word ∈ resetWords, Says word (Text.trim line) then { s with env := s.env.reset }
  else if Text.trim line = "" ∨ ∃ word ∈ showWords, Says word (Text.trim line) then s
  else (s.execute (Text.trim line)).2.1

/-- The lines of a dialogue in front of the first that ends it. -/
def linesRead (lines : List String) : List String :=
  lines.takeWhile fun line => Text.trim line ∉ stopWords

end Session

/-- One of several commands is known by the characters before the first space. -/
theorem Command.exists_says_iff (words : List String)
    (hwords : ∀ word ∈ words, ' ' ∉ word.toList) (text : String) :
    (∃ word ∈ words, Says word text) ↔
      String.ofList (text.toList.takeWhile (· ≠ ' ')) ∈ words := by
  constructor
  · rintro ⟨word, hword, hsays⟩
    exact (says_iff_takeWhile (hwords word hword)).1 hsays ▸ hword
  · intro hname
    exact ⟨_, hname, (says_iff_takeWhile (hwords _ hname)).2 rfl⟩

/-- Any further line is calculated. -/
theorem Command.ofLine_of_not_answered {line : String} (h : ¬ Answered (Text.trim line)) :
    ofLine line = .calculate (Text.trim line) := by
  -- No command has the name that the line begins with.
  rw [Answered, exists_says_iff (resetWords ++ showWords) (by decide +kernel)] at h
  simp only [ofLine, ← Text.toList_trim, String.ofList_toList]
  simp_all [stopWords, resetWords, showWords]

/-- What a line does to a session, unless it ends the dialogue. -/
theorem Session.perform_ofLine (s : Session) {line : String}
    (h : Text.trim line ∉ Command.stopWords) :
    Command.ofLine line ≠ .stop ∧ (s.perform (Command.ofLine line)).1 = s.answer line := by
  simp only [Command.ofLine, answer, ← Text.toList_trim, String.ofList_toList,
    Command.exists_says_iff Command.resetWords (by decide +kernel),
    Command.exists_says_iff Command.showWords (by decide +kernel)]
  generalize Text.trim line = text at h
  -- Blank lines first: they say no word, and change nothing.
  by_cases hblank : text = ""
  · subst hblank
    simp [perform, Command.resetWords]
  · have hstop : ¬(text = "exit" ∨ text = "quit") := by
      simpa [Command.stopWords] using h
    -- From here on the line counts by the name it begins with only.
    generalize String.ofList (text.toList.takeWhile (· ≠ ' ')) = name
    rw [if_neg hblank, if_neg hstop]
    simp only [hblank, false_or, Command.resetWords, Command.showWords, List.mem_cons,
      List.not_mem_nil, or_false]
    -- The words are tried in this order, and none of them is in both lists.
    split
    · -- Help and the listing of the bindings print something and keep the session.
      rename_i hhelp
      rcases hhelp with rfl | rfl
      · simp [perform]
      · simp [perform]
    · split
      · rename_i hlist
        rcases hlist with rfl | rfl
        · simp [perform]
        · simp [perform]
      · split
        · -- The name is that of a reset, in one of its two spellings.
          simp [perform]
        · split
          · -- The postfix order of a text is shown without evaluating it.
            rename_i hpostfix
            subst hpostfix
            simp [perform]
          · -- Any other name begins an expression.
            simp [perform, *]

/-- The words that end a dialogue do so with blanks around them, too. -/
theorem Command.ofLine_of_mem_stopWords {line : String} (h : Text.trim line ∈ stopWords) :
    ofLine line = .stop := by
  simp only [ofLine, ← Text.toList_trim, String.ofList_toList]
  generalize Text.trim line = text at h
  simp only [stopWords, List.mem_cons, List.not_mem_nil, or_false] at h
  rcases h with rfl | rfl
  · rfl
  · rfl

/-! ### What the program does -/

namespace Program

variable {inv : Invocation}

theorem holdsDialogue_eq_true_iff : holdsDialogue inv = true ↔
    inv.help = false ∧ inv.version = false ∧ inv.command = none ∧ inv.script = none := by
  simp [holdsDialogue, and_assoc]

variable (h : holdsDialogue inv = true) (around : Surroundings)
include h

/-- The program then does nothing but hold the dialogue. -/
theorem run_eq_runDialogue : run inv around = runDialogue inv around := by
  obtain ⟨hhelp, hversion, hcommand, hscript⟩ := holdsDialogue_eq_true_iff.1 h
  simp [run, hhelp, hversion, hcommand, hscript]

/-- With the path of a script instead of a dialogue, the script is run. -/
theorem run_eq_runScript (path : String) :
    run { inv with script := some path } around =
      runScript { inv with script := some path } around path := by
  obtain ⟨hhelp, hversion, hcommand, -⟩ := holdsDialogue_eq_true_iff.1 h
  simp [run, hhelp, hversion, hcommand]

/-- With an expression instead of a dialogue, the expression is calculated. -/
theorem run_eq_runCommand (text : String) :
    run { inv with command := some text } around =
      runCommand { inv with command := some text } around text := by
  obtain ⟨hhelp, hversion, -, -⟩ := holdsDialogue_eq_true_iff.1 h
  simp [run, hhelp, hversion]

end Program

namespace Session

variable (s : Session)

/-! ### Dialogues as wholes -/

/-- A line that ends the dialogue leaves the lines behind it unread. -/
theorem interact_cons_of_mem_stopWords {line : String} (h : Text.trim line ∈ Command.stopWords)
    (rest : List String) : s.interact (line :: rest) = (s, []) := by
  rw [interact, Command.ofLine_of_mem_stopWords h]

/-- The lines behind one that does not end the dialogue are answered after it. -/
theorem interact_cons {line : String} (h : Text.trim line ∉ Command.stopWords)
    (rest : List String) :
    s.interact (line :: rest) =
      (((s.answer line).interact rest).1,
        (s.perform (Command.ofLine line)).2 ++ ((s.answer line).interact rest).2) := by
  obtain ⟨hne, hanswer⟩ := s.perform_ofLine h
  rw [interact, ← hanswer]
  split
  · rename_i hstop
    exact absurd hstop hne
  · rfl

/-- A line that ends the dialogue is not among the lines that are answered. -/
theorem linesRead_cons_of_mem {line : String} (h : Text.trim line ∈ Command.stopWords)
    (rest : List String) : linesRead (line :: rest) = [] :=
  List.takeWhile_cons_of_neg (by simpa using h)

/-- Any other line is, in front of those behind it. -/
theorem linesRead_cons {line : String} (h : Text.trim line ∉ Command.stopWords)
    (rest : List String) : linesRead (line :: rest) = line :: linesRead rest :=
  List.takeWhile_cons_of_pos (by simpa using h)

/-- The lines behind the end of a dialogue do not matter. -/
theorem interact_linesRead (lines : List String) :
    s.interact (linesRead lines) = s.interact lines := by
  induction lines generalizing s with
  | nil => rfl
  | cons line rest ih =>
    -- Either the dialogue ends here, or both sides answer the line and go on.
    by_cases h : Text.trim line ∈ Command.stopWords
    · rw [linesRead_cons_of_mem h, interact_cons_of_mem_stopWords s h]
      rfl
    · rw [linesRead_cons h, interact_cons s h, interact_cons s h, ih]

/-- A dialogue does to a session what its single lines do, one after the other. -/
theorem fst_interact (lines : List String) :
    (s.interact lines).1 = (linesRead lines).foldl answer s := by
  induction lines generalizing s with
  | nil => rfl
  | cons line rest ih =>
    by_cases h : Text.trim line ∈ Command.stopWords
    · rw [linesRead_cons_of_mem h, interact_cons_of_mem_stopWords s h]
      rfl
    · rw [linesRead_cons h, interact_cons s h, List.foldl_cons]
      exact ih (s.answer line)

/-- A dialogue reads the lines up to the first that ends it, and does to its session what these
lines do one after the other. The program succeeds, whatever comes of the lines. Whatever is
answered without a calculation would have had no value and bound nothing. -/
theorem interact_eq_foldl (lines : List String) :
    s.interact lines = s.interact (linesRead lines) ∧
      (s.interact lines).1 = (linesRead lines).foldl answer s ∧
      (∀ inv around, Program.holdsDialogue inv = true →
        let start := Program.openDialogue inv around
        Program.run inv around = (0, start.2 ++ (start.1.interact around.input).2)) ∧
      ∀ line, Command.Answered (Text.trim line) → Inert line ∧ Inert (Text.trim line) := by
  refine ⟨(s.interact_linesRead lines).symm, s.fst_interact lines, ?_,
    fun line => Command.Answered.inert⟩
  intro inv around hdialogue start
  exact Program.run_eq_runDialogue hdialogue around

/-- Bindings are restored in between, one line fails, and one is behind the end. -/
theorem interact_eq_foldl_reset :
    let s := Program.newSession .none fun _ => none
    let lines :=
      ["SET(#A, 2)", "", "$B", " .reset all ", "SET(#C, 3)", ".env", "quit", "SET(#D, 4)"]
    let around : Surroundings := ⟨fun _ => none, fun _ => .error .notFound, lines, false⟩
    (s.interact lines).1.env = Environment.standard.set "C" (.number 3) ∧
      (Program.run .none around).1 = 0 ∧ Inert " .reset all " := by
  intro s lines around
  obtain ⟨-, hfold, hrun, hinert⟩ := interact_eq_foldl s lines
  refine ⟨?_, ?_, (hinert " .reset all " ?_).1⟩
  · rw [hfold]
    decide +kernel
  · rw [hrun .none around rfl]
  · -- The blank after the word makes a command of it, whatever follows.
    exact .inr (.inr ⟨".reset", by decide +kernel, .inr ⟨"all", by decide +kernel⟩⟩)

end Session

end Calculator
