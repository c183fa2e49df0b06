import Calculator.Number.Numeral
import Calculator.Proofs.Span
import Mathlib.Data.List.TakeWhile

/-!
# The numeral at the start of a run

A run of digits and points is not matched against the form of a numeral. It is cut at its second
point, and then points are taken off its end. What is left is nevertheless the longest numeral that
the run begins with, wherever the points are, and it can always be read.

A run that begins with a digit has one of two forms (`Numeral.Starts`): it is all digits, or it goes
on with a point, digits or none, and nothing more or a second point. Cutting, reading and the length
of numerals are each settled on these forms.

## Key results

- `exists_starts`: the forms of a run
- `Starts.kept_eq`, `Starts.ofRun_eq`: what is kept is the text of the numeral
- `Starts.length_le`: no longer numeral stands at the start
- `isLongest_kept`: what is kept of a run is the longest numeral at its start
- `ofText?_kept`: it can be read
-/

namespace Calculator.Numeral

/-- Whether a text is a numeral: digits, or digits, a point and digits. -/
inductive IsNumeral : List Char → Prop
  | digits {whole : List Char} (hne : whole ≠ []) (hwhole : ∀ c ∈ whole, c.isDigit = true) :
    IsNumeral whole
  | point {whole fraction : List Char} (hne : whole ≠ []) (hwhole : ∀ c ∈ whole, c.isDigit = true)
    (hne' : fraction ≠ []) (hfraction : ∀ c ∈ fraction, c.isDigit = true) :
    IsNumeral (whole ++ '.' :: fraction)

/-- Whether a text is the longest numeral at the start of another one. -/
structure IsLongest (run text : List Char) : Prop where
  isPrefix : text <+: run
  isNumeral : IsNumeral text
  length_le : ∀ other : List Char, other <+: run → IsNumeral other → other.length ≤ text.length

/-- `Starts n run`: the digits of `n`, in front of the first and the second point of a run. -/
inductive Starts : Numeral → List Char → Prop
  | digits {whole : List Char} : Starts ⟨whole, []⟩ whole
  | point {whole fraction rest : List Char} (hrest : ∀ d ∈ rest.head?, d = '.') :
    Starts ⟨whole, fraction⟩ (whole ++ '.' :: (fraction ++ rest))

/-- The text of a numeral is a run with its digits. -/
theorem starts_text (n : Numeral) : Starts n n.text := by
  obtain ⟨whole, fraction⟩ := n
  by_cases hnil : fraction = []
  · -- A whole numeral is written without a point.
    subst hnil
    have htext : text ⟨whole, []⟩ = whole := by simp [text]
    rw [htext]
    exact .digits
  · -- Nothing stands behind the digits, so there is no second point.
    have htext : text ⟨whole, fraction⟩ = whole ++ '.' :: (fraction ++ []) := by
      simp [text, hnil]
    rw [htext]
    exact .point (by simp)

theorem ne_point_of_isDigit {c : Char} (h : c.isDigit = true) : c ≠ '.' := by
  rintro rfl
  exact absurd h (by decide)

/-- What follows the digits behind the first point does not go on with a digit. -/
theorem isDigit_eq_false_of_head? {rest : List Char} (hrest : ∀ d ∈ rest.head?, d = '.') :
    ∀ d ∈ rest.head?, d.isDigit = false := by
  intro d hd
  rw [hrest d hd]
  rfl

/-- A run that begins with a digit has one of the two forms. -/
theorem exists_starts {c : Char} {run : List Char} (hc : c.isDigit = true)
    (hrun : ∀ d ∈ run, isRunChar d = true) : ∃ n, n.WellFormed ∧ Starts n (c :: run) := by
  -- The only character of a run that is no digit is the point.
  have hpoint : ∀ d ∈ run, d.isDigit = false → d = '.' := fun d hd hnot => by
    simpa [isRunChar, hnot] using hrun d hd
  obtain ⟨digits, behind, rfl, hdigits, hbehind⟩ := List.exists_span Char.isDigit run
  have hwhole : ∀ d ∈ c :: digits, d.isDigit = true := List.forall_mem_cons.2 ⟨hc, hdigits⟩
  cases behind with
  | nil =>
    rw [List.append_nil]
    exact ⟨⟨c :: digits, []⟩, ⟨by simp, hwhole, by simp⟩, .digits⟩
  | cons first behind =>
    obtain rfl : first = '.' := hpoint first (by simp) (hbehind first rfl)
    obtain ⟨fraction, rest, rfl, hfraction, hrest⟩ := List.exists_span Char.isDigit behind
    -- The digits behind the point end with the run or at another point.
    have hsecond : ∀ d ∈ rest.head?, d = '.' := by
      intro d hd
      have hmem : d ∈ rest := List.mem_of_mem_head? hd
      exact hpoint d (by simp [hmem]) (hrest d hd)
    exact ⟨⟨c :: digits, fraction⟩, ⟨by simp, hwhole, hfraction⟩, .point hsecond⟩

/-! ### Cutting -/

/-- There is no point to be found among digits. -/
theorem filter_zipIdx_eq_nil {digits : List Char} (h : ∀ d ∈ digits, d.isDigit = true) (k : Nat) :
    (digits.zipIdx k).filter (·.1 == '.') = [] := by
  rw [List.filter_eq_nil_iff]
  intro entry hentry
  have hdigit := h _ (List.fst_mem_of_mem_zipIdx hentry)
  simpa using ne_point_of_isDigit hdigit

/-- Without points the cut is at the end. -/
theorem secondPoint_digits {whole : List Char} (h : ∀ d ∈ whole, d.isDigit = true) :
    secondPoint whole = whole.length := by
  rw [secondPoint, filter_zipIdx_eq_nil h]
  rfl

/-- Behind the first point, the second one or the end comes after the digits. -/
theorem secondPoint_point {whole fraction rest : List Char}
    (hwhole : ∀ d ∈ whole, d.isDigit = true) (hfraction : ∀ d ∈ fraction, d.isDigit = true)
    (hrest : ∀ d ∈ rest.head?, d = '.') :
    secondPoint (whole ++ '.' :: (fraction ++ rest)) = whole.length + 1 + fraction.length := by
  -- The first point is found behind the digits in front of it, and the next one no sooner than in
  -- the rest.
  have hpoints : (whole ++ '.' :: (fraction ++ rest)).zipIdx.filter (·.1 == '.') =
      ('.', whole.length) ::
        (rest.zipIdx (whole.length + 1 + fraction.length)).filter (·.1 == '.') := by
    rw [List.zipIdx_append, List.zipIdx_cons, List.zipIdx_append, List.filter_append,
      filter_zipIdx_eq_nil hwhole, List.filter_cons_of_pos rfl, List.filter_append,
      filter_zipIdx_eq_nil hfraction, List.nil_append, List.nil_append, Nat.zero_add]
  rw [secondPoint, hpoints]
  cases rest with
  -- There is no second point, so the cut is at the end.
  | nil =>
    show (whole ++ '.' :: (fraction ++ [])).length = _
    simp only [List.length_append, List.length_cons, List.append_nil]
    omega
  | cons d rest =>
    obtain rfl := hrest d rfl
    rw [List.zipIdx_cons, List.filter_cons_of_pos rfl]
    rfl

/-- Points at the end are taken off up to the first other character. -/
theorem kept_of_take {run front : List Char} (points : List Char)
    (htake : run.take (secondPoint run) = front ++ points) (hpoints : ∀ d ∈ points, d = '.')
    (hlast : ∀ d ∈ front.getLast?, d ≠ '.') : kept run = front := by
  -- Read from the end, the points come first.
  have hdrop : (points.reverse ++ front.reverse).dropWhile (· == '.') = front.reverse := by
    refine List.dropWhile_append_of_head? ?_ ?_
    · intro d hd
      simpa using hpoints d (List.mem_reverse.1 hd)
    · intro d hd
      rw [List.head?_reverse] at hd
      simpa using hlast d hd
  rw [kept, htake, List.reverse_append, hdrop, List.reverse_reverse]

theorem getLast?_ne_point {digits : List Char} (h : ∀ d ∈ digits, d.isDigit = true) :
    ∀ d ∈ digits.getLast?, d ≠ '.' := fun d hd =>
  ne_point_of_isDigit (h d (List.mem_of_getLast? hd))

namespace Starts

variable {n : Numeral} {run : List Char}

/-- What is kept of a run is the text of its numeral. -/
theorem kept_eq (h : Starts n run) (hn : n.WellFormed) : kept run = n.text := by
  cases h with
  | digits =>
    have hwhole : ∀ d ∈ run, d.isDigit = true := hn.isDigit_whole
    rw [kept_of_take [] ?_ (by simp) (getLast?_ne_point hwhole)]
    · simp [text]
    · rw [secondPoint_digits hwhole, List.take_length, List.append_nil]
  | @point whole fraction rest hrest =>
    have hwhole : ∀ d ∈ whole, d.isDigit = true := hn.isDigit_whole
    have hfraction : ∀ d ∈ fraction, d.isDigit = true := hn.isDigit_fraction
    have htake : (whole ++ '.' :: (fraction ++ rest)).take
        (secondPoint (whole ++ '.' :: (fraction ++ rest))) = whole ++ '.' :: fraction := by
      rw [secondPoint_point hwhole hfraction hrest, ← List.cons_append, ← List.append_assoc]
      exact List.take_left' (by simp [Nat.add_comm, Nat.add_left_comm])
    -- Without digits behind it, the first point stands at the end and is taken off.
    by_cases hnil : fraction = []
    · subst hnil
      rw [kept_of_take ['.'] htake (by simp) (getLast?_ne_point hwhole)]
      simp [text]
    · have hlast : ∀ d ∈ (whole ++ '.' :: fraction).getLast?, d ≠ '.' := by
        obtain ⟨front, last, rfl⟩ := (List.eq_nil_or_concat fraction).resolve_left hnil
        rw [List.concat_eq_append, ← List.cons_append, ← List.append_assoc, List.getLast?_concat]
        intro d hd
        obtain rfl := Option.some.inj hd
        exact ne_point_of_isDigit (hfraction last (by simp))
      rw [kept_of_take [] (htake.trans (List.append_nil _).symm) (by simp) hlast]
      simp [text, hnil]

/-- The longest numeral at the start of a run has its digits. -/
theorem ofRun_eq (h : Starts n run) (hn : n.WellFormed) : ofRun run = n := by
  cases h with
  | digits =>
    have hwhole : ∀ d ∈ run, d.isDigit = true := hn.isDigit_whole
    simp [ofRun, List.takeWhile_eq_self_iff.2 hwhole, List.dropWhile_eq_nil_iff.2 hwhole]
  | @point whole fraction rest hrest =>
    have hwhole : ∀ d ∈ whole, d.isDigit = true := hn.isDigit_whole
    have hfraction : ∀ d ∈ fraction, d.isDigit = true := hn.isDigit_fraction
    have hfirst : ∀ d ∈ ('.' :: (fraction ++ rest)).head?, d.isDigit = false := by simp
    rw [ofRun, List.takeWhile_append_of_head? hwhole hfirst,
      List.dropWhile_append_of_head? hwhole hfirst]
    simp only [List.takeWhile_append_of_head? hfraction (isDigit_eq_false_of_head? hrest)]

/-- No longer numeral stands at the start of a run. -/
theorem length_le (h : Starts n run) (hn : n.WellFormed) {other : List Char}
    (hstart : other <+: run) (hother : IsNumeral other) : other.length ≤ n.text.length := by
  obtain ⟨behind, hbehind⟩ := hstart
  cases h with
  | digits =>
    -- All of the run is its numeral, and nothing at its start is longer.
    have htext : (text ⟨run, []⟩).length = run.length := by simp [text]
    rw [htext, ← hbehind, List.length_append]
    exact Nat.le_add_right _ _
  | @point whole fraction rest hrest =>
    have hwhole : ∀ d ∈ whole, d.isDigit = true := hn.isDigit_whole
    have htext : whole.length ≤ (text ⟨whole, fraction⟩).length := by simp [text]
    have hfirst : ∀ d ∈ ('.' :: (fraction ++ rest)).head?, d.isDigit = false := by simp
    cases hother with
    -- A numeral without a point ends at the first one.
    | digits _ hdigits =>
      exact Nat.le_trans (List.length_le_of_append_eq hbehind hdigits hfirst) htext
    | @point whole' fraction' _ hwhole' hne' hfraction' =>
      rw [List.append_assoc, List.cons_append] at hbehind
      have hfirst' : ∀ d ∈ ('.' :: (fraction' ++ behind)).head?, d.isDigit = false := by simp
      -- Both have the same digits in front of the first point.
      have hlength : whole'.length = whole.length :=
        Nat.le_antisymm (List.length_le_of_append_eq hbehind hwhole' hfirst)
          (List.length_le_of_append_eq hbehind.symm hwhole hfirst')
      obtain ⟨rfl, htail⟩ := List.append_inj hbehind hlength
      have hle : fraction'.length ≤ fraction.length :=
        List.length_le_of_append_eq (List.cons.inj htail).2 hfraction'
          (isDigit_eq_false_of_head? hrest)
      have hpos : 0 < fraction'.length := List.length_pos_iff.2 hne'
      have hne : fraction ≠ [] := List.ne_nil_of_length_pos (by omega)
      simp only [text, hne, ↓reduceIte, List.length_append, List.length_cons]
      omega

end Starts

/-! ### Reading -/

variable {n : Numeral}

/-- Made of digits, a numeral has the text of one. -/
theorem WellFormed.isNumeral_text (h : n.WellFormed) : IsNumeral n.text := by
  by_cases hnil : n.fraction = []
  · simp only [text, hnil, ↓reduceIte, List.append_nil]
    exact .digits h.whole_ne_nil h.isDigit_whole
  · simp only [text, hnil, ↓reduceIte]
    exact .point h.whole_ne_nil h.isDigit_whole hnil h.isDigit_fraction

/-- Every numeral is read from its text. -/
theorem ofText?_text (h : n.WellFormed) : ofText? n.text = some n := by
  obtain ⟨whole, fraction⟩ := n
  have hwhole : ∀ d ∈ whole, d.isDigit = true := h.isDigit_whole
  have hfraction : ∀ d ∈ fraction, d.isDigit = true := h.isDigit_fraction
  have hne : whole ≠ [] := h.whole_ne_nil
  by_cases hnil : fraction = []
  · subst hnil
    simp [text, ofText?, List.takeWhile_eq_self_iff.2 hwhole, List.dropWhile_eq_nil_iff.2 hwhole,
      hne]
  · -- The point ends the digits in front of it, and the rest is digits to the end.
    have hfirst : ∀ d ∈ ('.' :: fraction).head?, d.isDigit = false := by simp
    have hall : fraction.all Char.isDigit = true := List.all_eq_true.2 hfraction
    simp [text, hnil, ofText?, List.takeWhile_append_of_head? hwhole hfirst,
      List.dropWhile_append_of_head? hwhole hfirst, hall, hne]

section

variable {c : Char} {run : List Char}

/-- What is kept of a run that begins with a digit is the longest numeral at its start. -/
theorem isLongest_kept (hc : c.isDigit = true) (hrun : ∀ d ∈ run, isRunChar d = true) :
    IsLongest (c :: run) (kept (c :: run)) := by
  obtain ⟨n, hn, hstarts⟩ := exists_starts hc hrun
  have hstart := isPrefixOf_ofRun (c :: run)
  rw [hstarts.ofRun_eq hn] at hstart
  rw [hstarts.kept_eq hn]
  exact ⟨hstart, hn.isNumeral_text, fun other => hstarts.length_le hn⟩

/-- What is kept of a run that begins with a digit can be read, as the longest numeral. -/
theorem ofText?_kept (hc : c.isDigit = true) (hrun : ∀ d ∈ run, isRunChar d = true) :
    ofText? (kept (c :: run)) = some (ofRun (c :: run)) := by
  obtain ⟨n, hn, hstarts⟩ := exists_starts hc hrun
  rw [hstarts.kept_eq hn, hstarts.ofRun_eq hn]
  exact ofText?_text hn

end

end Calculator.Numeral
