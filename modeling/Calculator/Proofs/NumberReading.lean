import Calculator.Proofs.NumberText

/-!
# Different numbers have different texts

The text of a number in either style is a numeral, perhaps with an exponent behind it. Reading the
numeral and moving its point by the exponent gives a decimal that rounds to the number, whichever
style it is written in and whichever way its digits were chosen. So the text determines the number.

## Key results

- `NumberStyle.magnitude_read`: what is written in a style is read back
- `NumberStyle.finiteText_injective`: texts of finite numbers in one style
- `plainNumber_injective`: texts of results, those of infinities and `NaN` among them
-/

namespace Calculator

attribute [local instance] Binary64.natPow

namespace Numeral

/-- A whole numeral with `.0` behind it. -/
def withFraction (n : Numeral) : Numeral := if n.fraction = [] then ⟨n.whole, ['0']⟩ else n

variable {n : Numeral}

/-- It still consists of digits. -/
theorem WellFormed.withFraction (h : n.WellFormed) : n.withFraction.WellFormed := by
  unfold Numeral.withFraction
  split
  · exact ⟨h.whole_ne_nil, h.isDigit_whole, by simp⟩
  · exact h

/-- A zero behind the point changes nothing. -/
theorem magnitude_withFraction (n : Numeral) :
    (Decimal.ofDigits n.withFraction.whole n.withFraction.fraction).magnitude =
      (Decimal.ofDigits n.whole n.fraction).magnitude := by
  unfold withFraction
  split
  · rename_i hnil
    -- The zero makes the significand ten times as large, and the exponent one smaller.
    rw [hnil, Decimal.ofDigits, Decimal.ofDigits, List.append_nil, Nat.ofDigitChars_append,
      Nat.ofDigitChars_cons, Nat.ofDigitChars_nil, Nat.mul_comm]
    exact Decimal.magnitude_mul_ten _ (-1)
  · rfl

/-- There is no exponent in a numeral. -/
theorem ne_of_mem_text (h : n.WellFormed) : ∀ c ∈ n.text, decide (c ≠ 'e') = true := by
  obtain ⟨c, run, htext, hc, hrun⟩ := exists_cons_eq_text h
  -- A letter is neither a digit nor a point.
  have hne : ∀ d, isRunChar d = true → decide (d ≠ 'e') = true := by
    rintro d hd
    refine decide_eq_true fun heq => ?_
    rw [heq] at hd
    exact absurd hd (by decide)
  rw [htext]
  exact List.forall_mem_cons.2 ⟨hne c (by simp [isRunChar, hc]), fun d hd => hne d (hrun d hd)⟩

end Numeral

namespace NumberStyle

variable {digits : List Char}

/-- Digits written positionally, whole numbers with a fraction, are the text of a numeral. -/
theorem positional_true_eq_text (point : Int) (h : digits ≠ []) :
    positional true digits point = (numeral digits point).withFraction.text := by
  unfold positional numeral
  split
  · simp [Numeral.withFraction, Numeral.text, h]
  · split
    · -- A whole number is the one case where `.0` is added.
      simp [Numeral.withFraction, Numeral.text]
    · have hne : ¬ digits.drop point.toNat = [] := by
        rw [List.drop_eq_nil_iff]
        omega
      simp [Numeral.withFraction, Numeral.text, hne]

/-- The point stands behind the first digit. -/
theorem numeral_one (h : digits ≠ []) : numeral digits 1 = ⟨digits.take 1, digits.drop 1⟩ := by
  have hpos : ¬ (1 : Int) ≤ 0 := by omega
  match digits, h with
  | [c], _ => rfl
  | c :: d :: cs, _ =>
    have hlong : ¬ ((c :: d :: cs).length : Int) ≤ 1 := by
      simp only [List.length_cons]
      omega
    rw [numeral, if_neg hpos, if_neg hlong]
    rfl

/-- Digits written with an exponent are the text of a numeral in front of it. -/
theorem scientific_eq_text (k : Int) (h : digits ≠ []) :
    scientific digits k = (numeral digits 1).text ++
      'e' :: (if k < 0 then '-' else '+') :: Nat.toDigits 10 k.natAbs := by
  -- A single digit has no point behind it in either form.
  have hdrop : digits.drop 1 = [] ↔ digits.length ≤ 1 := List.drop_eq_nil_iff
  simp only [scientific, Numeral.text, numeral_one h, hdrop]

/-- With the point behind the first digit, the other digits are places. -/
theorem ofDigits_numeral_one (h : digits ≠ []) :
    Decimal.ofDigits (numeral digits 1).whole (numeral digits 1).fraction =
      ⟨Nat.ofDigitChars 10 digits 0, 1 - digits.length⟩ := by
  have hlength := List.length_pos_iff.2 h
  rw [numeral_one h, Decimal.ofDigits, List.take_append_drop, List.length_drop]
  exact congrArg _ (by omega)

end NumberStyle

namespace Decimal

/-- What a decimal in any style stands for: the numeral in front of the exponent, if there is one,
and the exponent. -/
def read (text : List Char) : Decimal :=
  let n := Numeral.ofRun (text.takeWhile (· ≠ 'e'))
  let d := ofDigits n.whole n.fraction
  match text.dropWhile (· ≠ 'e') with
  | _ :: '-' :: digits => ⟨d.significand, d.exponent - Nat.ofDigitChars 10 digits 0⟩
  | _ :: '+' :: digits => ⟨d.significand, d.exponent + Nat.ofDigitChars 10 digits 0⟩
  | _ => d

variable {n : Numeral}

/-- A numeral without an exponent behind it. -/
theorem read_text (h : n.WellFormed) : read n.text = ofDigits n.whole n.fraction := by
  have hne := n.ne_of_mem_text h
  unfold read
  rw [List.takeWhile_eq_self_iff.2 hne, List.dropWhile_eq_nil_iff.2 hne, Numeral.ofRun_text h]

/-- A numeral with an exponent behind it. -/
theorem read_text_append (h : n.WellFormed) (k : Int) :
    read (n.text ++ 'e' :: (if k < 0 then '-' else '+') :: Nat.toDigits 10 k.natAbs) =
      ⟨(ofDigits n.whole n.fraction).significand, (ofDigits n.whole n.fraction).exponent + k⟩ := by
  have hne := n.ne_of_mem_text h
  unfold read
  rw [List.takeWhile_append_of_pos hne, List.dropWhile_append_of_pos hne,
    List.takeWhile_cons_of_neg (by decide), List.dropWhile_cons_of_neg (by decide),
    List.append_nil, Numeral.ofRun_text h]
  -- The sign decides how the digits behind it are read.
  by_cases hk : k < 0
  · simp only [if_pos hk, Nat.ofDigitChars_ten_toDigits]
    exact congrArg _ (by omega)
  · simp only [if_neg hk, Nat.ofDigitChars_ten_toDigits]
    exact congrArg _ (by omega)

end Decimal

namespace NumberStyle

variable (style : NumberStyle) (d : Decimal)

/-- A number in any style is a numeral, perhaps with an exponent behind it, and is read back. -/
theorem magnitudeText_cases :
    ∃ (n : Numeral) (tail : List Char), n.WellFormed ∧ style.magnitudeText d = n.text ++ tail ∧
      (Decimal.read (style.magnitudeText d)).magnitude = d.magnitude := by
  have hne : Nat.toDigits 10 d.significand ≠ [] := Nat.toDigits_ne_nil
  have hdigits : ∀ c ∈ Nat.toDigits 10 d.significand, c.isDigit = true := fun _ =>
    Nat.isDigit_of_mem_toDigits (by decide) (by decide)
  have hformed : ∀ point, (numeral (Nat.toDigits 10 d.significand) point).WellFormed := fun _ =>
    wellFormed_numeral hne hdigits
  have hmagnitude := magnitude_numeral (Nat.toDigits 10 d.significand) d.exponent
  rw [Nat.ofDigitChars_ten_toDigits] at hmagnitude
  unfold magnitudeText
  simp only
  split
  · -- Positional, with or without a fraction: the text is all numeral.
    cases style.keepsFraction with
    | false =>
      rw [positional_eq_text hne]
      refine ⟨_, [], hformed _, (List.append_nil _).symm, ?_⟩
      rw [Decimal.read_text (hformed _), hmagnitude]
    | true =>
      rw [positional_true_eq_text _ hne]
      refine ⟨_, [], (hformed _).withFraction, (List.append_nil _).symm, ?_⟩
      rw [Decimal.read_text (hformed _).withFraction, Numeral.magnitude_withFraction, hmagnitude]
  · -- With an exponent, which is counted from the first digit and not from the last.
    rw [scientific_eq_text _ hne]
    refine ⟨_, _, hformed _, rfl, ?_⟩
    have hexponent : 1 - ((Nat.toDigits 10 d.significand).length : Int) +
        ((Nat.toDigits 10 d.significand).length + d.exponent - 1) = d.exponent := by omega
    rw [Decimal.read_text_append (hformed 1), ofDigits_numeral_one hne,
      Nat.ofDigitChars_ten_toDigits]
    simp only [hexponent]

/-- What is written in a style is read back. -/
theorem magnitude_read : (Decimal.read (style.magnitudeText d)).magnitude = d.magnitude := by
  obtain ⟨_, _, _, _, hread⟩ := style.magnitudeText_cases d
  exact hread

/-- A number without its sign begins with a digit. -/
theorem exists_cons_eq_magnitudeText :
    ∃ c rest, style.magnitudeText d = c :: rest ∧ c.isDigit = true := by
  obtain ⟨n, tail, hformed, htext, -⟩ := style.magnitudeText_cases d
  obtain ⟨c, run, hrun, hc, -⟩ := Numeral.exists_cons_eq_text hformed
  exact ⟨c, run ++ tail, by rw [htext, hrun, List.cons_append], hc⟩

/-! ### Finite numbers -/

/-- A hyphen is in front of negative numbers, and a digit in front of the others. -/
theorem exists_cons_eq_finiteText (x : Float) :
    ∃ c rest, style.finiteText x = c :: rest ∧ (c = '-' ∨ c.isDigit = true) ∧
      (c = '-' ↔ Binary64.isNegative x = true) := by
  obtain ⟨c, rest, htext, hc⟩ :=
    style.exists_cons_eq_magnitudeText (.shortest style.tie (Binary64.magnitude x))
  rw [finiteText, htext]
  cases Binary64.isNegative x with
  | true => exact ⟨'-', c :: rest, rfl, .inl rfl, iff_of_true rfl rfl⟩
  | false =>
    have hne : c ≠ '-' := by
      rintro rfl
      exact absurd hc (by decide)
    exact ⟨c, rest, rfl, .inr hc, iff_of_false hne Bool.false_ne_true⟩

/-- The text of a finite number has a digit in it. -/
theorem any_isDigit_finiteText (x : Float) : (style.finiteText x).any Char.isDigit = true := by
  obtain ⟨c, rest, htext, hc⟩ :=
    style.exists_cons_eq_magnitudeText (.shortest style.tie (Binary64.magnitude x))
  rw [finiteText, htext, List.any_append, List.any_cons, hc, Bool.true_or, Bool.or_true]

variable {x y : Float}

/-- The first character tells the sign. -/
theorem isNegative_eq_of_finiteText (h : style.finiteText x = style.finiteText y) :
    Binary64.isNegative x = Binary64.isNegative y := by
  obtain ⟨c, rest, hx, -, hsign⟩ := style.exists_cons_eq_finiteText x
  obtain ⟨d, rest', hy, -, hsign'⟩ := style.exists_cons_eq_finiteText y
  obtain ⟨rfl, -⟩ := List.cons.inj (hx.symm.trans (h.trans hy))
  exact Bool.eq_iff_iff.2 (hsign.symm.trans hsign')

/-- Different finite numbers have different texts. -/
theorem finiteText_injective (hx : Binary64.isFinite x = true) (hy : Binary64.isFinite y = true)
    (h : style.finiteText x = style.finiteText y) : x = y := by
  have hsign := style.isNegative_eq_of_finiteText h
  refine Binary64.eq_of_magnitude_eq ?_ hsign
  rw [finiteText, finiteText, hsign] at h
  have htext := List.append_cancel_left h
  -- The digits may be chosen in different ways, but they read back as both magnitudes.
  calc Binary64.magnitude x
      = (Decimal.shortest style.tie (Binary64.magnitude x)).magnitude :=
        (Decimal.magnitude_shortest style.tie (of_decide_eq_true hx)).symm
    _ = (Decimal.shortest style.tie (Binary64.magnitude y)).magnitude := by
        rw [← style.magnitude_read, htext, style.magnitude_read]
    _ = Binary64.magnitude y :=
        Decimal.magnitude_shortest style.tie (of_decide_eq_true hy)

end NumberStyle

/-! ### Infinities and `NaN` -/

section

variable {x y : Float}

/-- Results show finite numbers in the plain style. -/
theorem toList_plainNumber_of_isFinite (h : Binary64.isFinite x = true) :
    (plainNumber x).toList = NumberStyle.plain.finiteText x := by
  rw [plainNumber, if_pos h, String.toList_ofList]

/-- How results show what is not finite. -/
theorem plainNumber_cases (h : Binary64.isFinite x = false) :
    (plainNumber x = "NaN" ∧ Binary64.infinity < Binary64.magnitude x) ∨
      (plainNumber x = "-inf" ∧ Binary64.magnitude x = Binary64.infinity ∧
        Binary64.isNegative x = true) ∨
      (plainNumber x = "inf" ∧ Binary64.magnitude x = Binary64.infinity ∧
        Binary64.isNegative x = false) := by
  have hle : Binary64.infinity ≤ Binary64.magnitude x := Nat.le_of_not_lt (of_decide_eq_false h)
  rw [plainNumber, if_neg (by simp [h])]
  split
  · rename_i hne
    exact .inl ⟨rfl, Nat.lt_of_le_of_ne hle (Ne.symm hne)⟩
  · rename_i heq
    split
    · rename_i hsign
      exact .inr (.inl ⟨rfl, Decidable.of_not_not heq, hsign⟩)
    · rename_i hsign
      exact .inr (.inr ⟨rfl, Decidable.of_not_not heq, Bool.eq_false_iff.2 hsign⟩)

/-- The texts of infinities and `NaN`. -/
def wordsOfNumbers : List String := ["NaN", "-inf", "inf"]

/-- What is not finite is shown as one of three words. -/
theorem plainNumber_mem_wordsOfNumbers (h : Binary64.isFinite x = false) :
    plainNumber x ∈ wordsOfNumbers := by
  rcases plainNumber_cases h with ⟨htext, -⟩ | ⟨htext, -⟩ | ⟨htext, -⟩
  all_goals simp [htext, wordsOfNumbers]

/-- The text of an infinity or `NaN` has no digit in it. -/
theorem any_isDigit_plainNumber (h : Binary64.isFinite x = false) :
    (plainNumber x).toList.any Char.isDigit = false := by
  have hall : ∀ text ∈ wordsOfNumbers, text.toList.any Char.isDigit = false := by decide +kernel
  exact hall _ (plainNumber_mem_wordsOfNumbers h)

/-- Different numbers have different texts, infinities and `NaN` among them. -/
theorem plainNumber_injective (h : plainNumber x = plainNumber y) : x = y := by
  -- A digit tells the texts of finite numbers from the others.
  have hmixed : ∀ {x y : Float}, plainNumber x = plainNumber y → Binary64.isFinite x = true →
      Binary64.isFinite y = false → False := by
    intro x y h hx hy
    have hdigit := NumberStyle.plain.any_isDigit_finiteText x
    rw [← toList_plainNumber_of_isFinite hx, h, any_isDigit_plainNumber hy] at hdigit
    exact nomatch hdigit
  cases hx : Binary64.isFinite x with
  | true =>
    cases hy : Binary64.isFinite y with
    | true =>
      have htext := congrArg String.toList h
      rw [toList_plainNumber_of_isFinite hx, toList_plainNumber_of_isFinite hy] at htext
      exact NumberStyle.plain.finiteText_injective hx hy htext
    | false => exact (hmixed h hx hy).elim
  | false =>
    cases hy : Binary64.isFinite y with
    | true => exact (hmixed h.symm hy hx).elim
    | false =>
      -- Nine cases: on the diagonal the numbers are equal, and elsewhere the words differ.
      rcases plainNumber_cases hx with ⟨htext, hmag⟩ | ⟨htext, hmag, hsign⟩ | ⟨htext, hmag, hsign⟩
      all_goals
        rcases plainNumber_cases hy with
          ⟨htext', hmag'⟩ | ⟨htext', hmag', hsign'⟩ | ⟨htext', hmag', hsign'⟩
      all_goals first
        | exact Binary64.eq_of_infinity_lt hmag hmag'
        | exact Binary64.eq_of_magnitude_eq (hmag.trans hmag'.symm) (hsign.trans hsign'.symm)
        | exact absurd (htext.symm.trans (h.trans htext')) (by decide)

end

end Calculator
