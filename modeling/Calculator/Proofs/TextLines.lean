import Calculator.Text.Blank
import Calculator.Text.Lines

/-!
# Texts made up of lines

Every text consists of lines, each with a line feed behind it, and of what stands behind the last
line feed. Its lines are read off this form: a line loses a carriage return at its end, and what
stands behind the last line feed is a line unless it is empty.

Who trims lines and passes over blank ones sees neither the carriage returns nor the empty end. For
such a reader (`contents`) a line feed between two texts keeps them apart, and it does not matter
which kind of line break a text has.

## Key results

- `exists_eq_unlines`: every text is made up of lines
- `splitLines_unlines`: the lines of such a text
- `lines_join`, `lines_intercalate`: lines that are written one below the other are read back
- `contents_append_newline`, `contents_withReturns`: trimmed lines and line breaks
-/

namespace Calculator.Text

/-- Lines with a line feed behind each, and what stands behind the last line feed. -/
def unlines (lines : List (List Char)) (last : List Char) : List Char :=
  lines.flatMap (· ++ ['\n']) ++ last

/-- A line without the carriage return that belongs to the line break behind it. -/
def withoutReturn (line : List Char) : List Char :=
  if line.getLast? = some '\r' then line.dropLast else line

/-- A text with a carriage return in front of every line feed. -/
def withReturns (text : String) : String :=
  String.ofList (text.toList.flatMap fun c => if c = '\n' then ['\r', '\n'] else [c])

/-- The lines of a text without the blanks around them, as far as anything is left of them. -/
def contents (text : String) : List String := ((lines text).map trim).filter (· ≠ "")

/-! ### Lines of a text in pieces -/

theorem unlines_cons (line : List Char) (lines : List (List Char)) (last : List Char) :
    unlines (line :: lines) last = line ++ '\n' :: unlines lines last := by
  simp [unlines]

theorem unlines_append (xs ys : List (List Char)) (x last : List Char) :
    unlines (xs ++ x :: ys) last = unlines xs x ++ '\n' :: unlines ys last := by
  simp [unlines]

/-- Every text is made up of lines. -/
theorem exists_eq_unlines (cs : List Char) :
    ∃ lines last, cs = unlines lines last ∧ (∀ line ∈ lines, '\n' ∉ line) ∧ '\n' ∉ last := by
  induction cs with
  | nil => exact ⟨[], [], rfl, nofun, nofun⟩
  | cons c cs ih =>
    obtain ⟨lines, last, rfl, hlines, hlast⟩ := ih
    by_cases hc : c = '\n'
    · subst hc
      exact ⟨[] :: lines, last, (unlines_cons [] lines last).symm,
        List.forall_mem_cons.2 ⟨nofun, hlines⟩, hlast⟩
    · -- The character goes to the first line, which may be the last one.
      cases lines with
      | nil =>
        refine ⟨[], c :: last, rfl, nofun, fun hmem => ?_⟩
        exact (List.mem_cons.1 hmem).elim (fun heq => hc heq.symm) hlast
      | cons line lines =>
        obtain ⟨hline, hlines⟩ := List.forall_mem_cons.1 hlines
        refine ⟨(c :: line) :: lines, last, by simp [unlines], ?_, hlast⟩
        refine List.forall_mem_cons.2 ⟨fun hmem => ?_, hlines⟩
        exact (List.mem_cons.1 hmem).elim (fun heq => hc heq.symm) hline

/-- A character that is not in a line break belongs to the line behind it. -/
theorem splitLines_cons {c : Char} {cs : List Char} (hc : c ≠ '\n')
    (hreturn : c = '\r' → cs.head? ≠ some '\n') :
    splitLines (c :: cs) =
      match splitLines cs with
      | [] => [[c]]
      | line :: rest => (c :: line) :: rest := by
  refine splitLines.eq_4 c cs hc ?_
  rintro rest hc rfl
  exact hreturn hc rfl

/-- Characters without a line feed among them are one line, if there are any. -/
theorem splitLines_of_not_mem {line : List Char} (h : '\n' ∉ line) :
    splitLines line = if line = [] then [] else [line] := by
  induction line with
  | nil => rfl
  | cons c line ih =>
    obtain ⟨hc, hline⟩ := List.ne_and_not_mem_of_not_mem_cons h
    -- A carriage return without a line feed behind it is a character like any other.
    have hreturn : c = '\r' → line.head? ≠ some '\n' := fun _ hhead =>
      hline (List.mem_of_head? hhead)
    rw [splitLines_cons hc.symm hreturn, ih hline, if_neg (List.cons_ne_nil c line)]
    split
    · rename_i hnil
      split at hnil
      · rename_i heq
        rw [heq]
      · exact nomatch hnil
    · rename_i first rest hcons
      split at hcons
      · exact nomatch hcons
      · obtain ⟨rfl, rfl⟩ := List.cons.inj hcons
        rfl

/-- A line ends before a line feed, or before a carriage return in front of it. -/
theorem splitLines_append_newline {line : List Char} (h : '\n' ∉ line) (rest : List Char) :
    splitLines (line ++ '\n' :: rest) = withoutReturn line :: splitLines rest := by
  induction line with
  | nil => rfl
  | cons c line ih =>
    obtain ⟨hc, hline⟩ := List.ne_and_not_mem_of_not_mem_cons h
    -- A carriage return right before the line feed is the one that is lost.
    by_cases hreturn : c = '\r' ∧ line = []
    · obtain ⟨rfl, rfl⟩ := hreturn
      rfl
    · have hnext : c = '\r' → (line ++ '\n' :: rest).head? ≠ some '\n' := by
        intro heq hhead
        cases line with
        | nil => exact hreturn ⟨heq, rfl⟩
        | cons d line => exact hline (List.mem_cons.2 (.inl (Option.some.inj hhead).symm))
      -- Whether a line ends with a carriage return does not depend on its first character.
      have hwithout : withoutReturn (c :: line) = c :: withoutReturn line := by
        cases line with
        | nil =>
          have hne : c ≠ '\r' := fun heq => hreturn ⟨heq, rfl⟩
          simp [withoutReturn, hne]
        | cons d line =>
          simp only [withoutReturn, List.getLast?_cons_cons, List.dropLast_cons_cons]
          split
          · rfl
          · rfl
      rw [List.cons_append, splitLines_cons hc.symm hnext, ih hline, hwithout]

/-- The lines of a text that is made up of them. -/
theorem splitLines_unlines {lines : List (List Char)} {last : List Char}
    (hlines : ∀ line ∈ lines, '\n' ∉ line) (hlast : '\n' ∉ last) :
    splitLines (unlines lines last) =
      lines.map withoutReturn ++ if last = [] then [] else [last] := by
  induction lines with
  | nil => exact splitLines_of_not_mem hlast
  | cons line lines ih =>
    obtain ⟨hline, hlines⟩ := List.forall_mem_cons.1 hlines
    rw [unlines_cons, splitLines_append_newline hline, ih hlines]
    rfl

/-! ### Lines one below the other -/

/-- Lines with line feeds between them have none behind the last line. -/
theorem toList_intercalate_concat (before : List String) (last : String) :
    ("\n".intercalate (before ++ [last])).toList =
      unlines (before.map String.toList) last.toList := by
  rw [String.toList_intercalate, List.map_append]
  -- Behind every line but the last comes a line feed, which is the form of `unlines`.
  induction before with
  | nil => simp [unlines]
  | cons text before ih =>
    rw [List.map_cons, List.cons_append, unlines_cons, ← ih]
    cases before <;> simp

section

variable {texts : List String}
  (hbreak : ∀ text ∈ texts, '\n' ∉ text.toList ∧ text.toList.getLast? ≠ some '\r')
include hbreak

/-- Lines that do not end with a carriage return lose nothing. -/
theorem map_withoutReturn :
    (texts.map String.toList).map withoutReturn = texts.map String.toList := by
  rw [List.map_map]
  refine List.map_congr_left fun text htext => ?_
  exact if_neg (hbreak text htext).2

/-- Lines with a line feed behind each are read back. -/
theorem lines_join : lines (String.join (texts.map (· ++ "\n"))) = texts := by
  have htext : (String.join (texts.map (· ++ "\n"))).toList =
      unlines (texts.map String.toList) [] := by
    simp [String.toList_join, unlines, List.flatMap_map]
  have hlines : ∀ line ∈ texts.map String.toList, '\n' ∉ line := by
    simpa using fun text htext => (hbreak text htext).1
  rw [lines, htext, splitLines_unlines hlines List.not_mem_nil, map_withoutReturn hbreak,
    if_pos rfl]
  simp

/-- Lines with line feeds between them are read back, if the last one is not empty. -/
theorem lines_intercalate (hlast : texts.getLast? ≠ some "") :
    lines ("\n".intercalate texts) = texts := by
  cases hend : texts.getLast? with
  | none =>
    rw [List.getLast?_eq_none_iff.1 hend]
    rfl
  | some last =>
    obtain ⟨before, rfl⟩ := List.getLast?_eq_some_iff.1 hend
    have hlines : ∀ line ∈ before.map String.toList, '\n' ∉ line := by
      simpa using fun text htext => (hbreak text (List.mem_append_left [last] htext)).1
    have hwithout := map_withoutReturn fun text htext =>
      hbreak text (List.mem_append_left [last] htext)
    have hne : last.toList ≠ [] := fun hnil =>
      hlast (hend.trans (congrArg some (String.toList_eq_nil_iff.1 hnil)))
    rw [lines, toList_intercalate_concat,
      splitLines_unlines hlines (hbreak last (by simp)).1, hwithout, if_neg hne]
    simp

end

/-! ### Trimmed lines -/

/-- A blank at the end of a text is trimmed. -/
theorem trimChars_concat {b : Char} (hb : isBlank b = true) (cs : List Char) :
    trimChars (cs ++ [b]) = trimChars cs := by
  unfold trimChars
  rw [List.dropWhile_append]
  -- Either nothing but blanks stands in front of the blank, or it is cut off at the end.
  split
  · rename_i hnil
    rw [List.isEmpty_iff.1 hnil]
    simp [trimEnd, hb]
  · simp [trimEnd, hb]

/-- A trimmed text does not end with a blank. -/
theorem isBlank_getLast_of_trimChars {cs : List Char} (h : trimChars cs = cs) {b : Char}
    (hb : cs.getLast? = some b) : isBlank b = false := by
  refine Bool.eq_false_iff.2 fun hblank => ?_
  obtain ⟨start, rfl⟩ := List.getLast?_eq_some_iff.1 hb
  -- Trimming would make the text shorter, so it would not leave it as it is.
  rw [trimChars_concat hblank] at h
  have hle := (trimChars_sublist start).length_le
  rw [h, List.length_append, List.length_singleton] at hle
  omega

/-- The carriage return of a line break is trimmed anyway. -/
theorem trimChars_withoutReturn (line : List Char) :
    trimChars (withoutReturn line) = trimChars line := by
  unfold withoutReturn
  split
  · rename_i hlast
    obtain ⟨start, rfl⟩ := List.getLast?_eq_some_iff.1 hlast
    rw [List.dropLast_concat, trimChars_concat rfl]
  · rfl

/-- The contents of a text that is made up of lines. -/
theorem contents_unlines {lines : List (List Char)} {last : List Char}
    (hlines : ∀ line ∈ lines, '\n' ∉ line) (hlast : '\n' ∉ last) :
    contents (String.ofList (unlines lines last)) =
      ((lines ++ [last]).map fun line => String.ofList (trimChars line)).filter (· ≠ "") := by
  -- An empty end is no line, but it would be passed over anyway.
  have hend : ((if last = [] then [] else [last]).map fun line =>
      String.ofList (trimChars line)).filter (· ≠ "") =
        ([last].map fun line => String.ofList (trimChars line)).filter (· ≠ "") := by
    split
    · rename_i hnil
      rw [hnil]
      rfl
    · rfl
  have htrim : (trim ∘ String.ofList) = fun line => String.ofList (trimChars line) := by
    funext line
    simp [trim]
  have hreturn : ((fun line => String.ofList (trimChars line)) ∘ withoutReturn) =
      fun line => String.ofList (trimChars line) := by
    funext line
    simp [trimChars_withoutReturn]
  rw [contents, Text.lines, String.toList_ofList, splitLines_unlines hlines hlast, List.map_map,
    htrim, List.map_append, List.map_map, hreturn, List.filter_append, hend, ← List.filter_append,
    ← List.map_append]

/-- A line feed between two texts keeps their contents apart. -/
theorem contents_append_newline (first second : String) :
    contents (first ++ "\n" ++ second) = contents first ++ contents second := by
  obtain ⟨xs, x, hfirst, hxs, hx⟩ := exists_eq_unlines first.toList
  obtain ⟨ys, y, hsecond, hys, hy⟩ := exists_eq_unlines second.toList
  -- The end of the first text and the line feed make up a line of their own.
  have hboth : first ++ "\n" ++ second = String.ofList (unlines (xs ++ x :: ys) y) := by
    rw [unlines_append, ← hfirst, ← hsecond, ← String.toList_inj]
    simp
  have hxys : ∀ line ∈ xs ++ x :: ys, '\n' ∉ line :=
    List.forall_mem_append.2 ⟨hxs, List.forall_mem_cons.2 ⟨hx, hys⟩⟩
  rw [hboth, contents_unlines hxys hy, ← String.ofList_toList (s := first), hfirst,
    contents_unlines hxs hx, ← String.ofList_toList (s := second), hsecond,
    contents_unlines hys hy, ← List.filter_append, ← List.map_append]
  simp

/-- Carriage returns in front of the line feeds do not change the contents. -/
theorem contents_withReturns (text : String) : contents (withReturns text) = contents text := by
  obtain ⟨lines, last, htext, hlines, hlast⟩ := exists_eq_unlines text.toList
  -- Inside a line nothing is changed.
  have hline : ∀ line : List Char, '\n' ∉ line →
      (line.flatMap fun c => if c = '\n' then ['\r', '\n'] else [c]) = line := by
    intro line hline
    induction line with
    | nil => rfl
    | cons c line ih =>
      obtain ⟨hc, hline⟩ := List.ne_and_not_mem_of_not_mem_cons hline
      rw [List.flatMap_cons, if_neg hc.symm, ih hline, List.singleton_append]
  -- Each line has a carriage return at its end now.
  have hreturns : withReturns text = String.ofList (unlines (lines.map (· ++ ['\r'])) last) := by
    rw [withReturns, htext]
    refine congrArg String.ofList ?_
    clear htext
    induction lines with
    | nil => exact hline last hlast
    | cons line lines ih =>
      obtain ⟨hfirst, hlines⟩ := List.forall_mem_cons.1 hlines
      rw [unlines_cons, List.flatMap_append, hline line hfirst, List.flatMap_cons, if_pos rfl,
        ih hlines, List.map_cons, unlines_cons]
      simp
  have hlines' : ∀ line ∈ lines.map (· ++ ['\r']), '\n' ∉ line := by
    simpa using hlines
  rw [hreturns, contents_unlines hlines' hlast, ← String.ofList_toList (s := text), htext,
    contents_unlines hlines hlast]
  simp [Function.comp_def, trimChars_concat (b := '\r') rfl]

end Calculator.Text
