import Calculator.Number.Numeral
import Calculator.Number.Style
import Calculator.Proofs.BitPattern
import Calculator.Proofs.NumeralRun

/-!
# The text of a number reads back

Written positionally, the digits of a decimal become those of a numeral: zeros are added in front of
them or behind them, or the point goes between them, and none of it changes the number. As the
shortest decimal of a double rounds to the double, so does the numeral that its text is.

## Key results

- `Numeral.ofRun_text`: the numeral at the start of its own text is the whole of it
- `NumberStyle.positional_eq_text`: positional digits are the text of a numeral
- `NumberStyle.magnitude_numeral`: the numeral stands for the number of the digits
- `Numeral.isNegative_value`: what is read is not negative
- `toList_plainNumber`, `value_shortest`: the text of a finite number is a numeral that reads back
-/

namespace Calculator

attribute [local instance] Binary64.natPow

namespace Numeral

variable {n : Numeral}

/-- The numeral at the start of the text of a numeral is that numeral. -/
theorem ofRun_text (h : n.WellFormed) : ofRun n.text = n := n.starts_text.ofRun_eq h

/-- The text of a numeral is a run that begins with a digit. -/
theorem exists_cons_eq_text (h : n.WellFormed) :
    ∃ c run, n.text = c :: run ∧ c.isDigit = true ∧ ∀ d ∈ run, isRunChar d = true := by
  obtain ⟨whole, fraction⟩ := n
  cases whole with
  | nil => exact absurd rfl h.whole_ne_nil
  | cons c cs =>
    have hrun : ∀ {d : Char}, d.isDigit = true → isRunChar d = true := fun hd => by
      simp [isRunChar, hd]
    refine ⟨c, _, rfl, h.isDigit_whole c List.mem_cons_self, List.forall_mem_append.2 ⟨?_, ?_⟩⟩
    · exact fun d hd => hrun (h.isDigit_whole d (List.mem_cons_of_mem c hd))
    · -- There is a point in the text only if there are digits behind it.
      split
      · simp
      · exact List.forall_mem_cons.2 ⟨rfl, fun d hd => hrun (h.isDigit_fraction d hd)⟩

/-- Numerals are not negative. -/
theorem isNegative_value (n : Numeral) : Binary64.isNegative n.value = false :=
  Binary64.isNegative_toFloat (Nat.min_le_right _ _)

end Numeral

namespace NumberStyle

/-- Digits with the point after the first `point` of them, as a numeral. -/
def numeral (digits : List Char) (point : Int) : Numeral :=
  if point ≤ 0 then ⟨['0'], List.replicate (-point).toNat '0' ++ digits⟩
  else if digits.length ≤ point then
    ⟨digits ++ List.replicate (point.toNat - digits.length) '0', []⟩
  else ⟨digits.take point.toNat, digits.drop point.toNat⟩

variable {digits : List Char} {point : Int}

/-- Digits written positionally, whole numbers without a fraction, are the text of a numeral. -/
theorem positional_eq_text (h : digits ≠ []) :
    positional false digits point = (numeral digits point).text := by
  unfold positional numeral Numeral.text
  split
  · simp [h]
  · split
    · simp
    · rename_i hpos hlt
      have hne : ¬ digits.drop point.toNat = [] := by
        rw [List.drop_eq_nil_iff]
        omega
      simp [hne]

/-- The numeral of digits is made of digits. -/
theorem wellFormed_numeral (hne : digits ≠ []) (h : ∀ c ∈ digits, c.isDigit = true) :
    (numeral digits point).WellFormed := by
  have hzeros : ∀ k, ∀ c ∈ List.replicate k '0', c.isDigit = true := fun k c hc =>
    List.eq_of_mem_replicate hc ▸ rfl
  unfold numeral
  split
  · exact ⟨by simp, by simp, List.forall_mem_append.2 ⟨hzeros _, h⟩⟩
  · split
    · exact ⟨by simp [hne], List.forall_mem_append.2 ⟨h, hzeros _⟩, nofun⟩
    · -- The point stands inside the digits, so some are in front of it.
      refine ⟨fun hnil => ?_, fun c hc => h c (List.mem_of_mem_take hc),
        fun c hc => h c (List.mem_of_mem_drop hc)⟩
      rcases List.take_eq_nil_iff.1 hnil with hpoint | hnil
      · omega
      · exact hne hnil

/-- The numeral of digits stands for the number that the digits do: zeros behind a whole number are
powers of ten, and those behind the point change nothing. -/
theorem magnitude_numeral (digits : List Char) (e : Int) :
    (Decimal.ofDigits (numeral digits (digits.length + e)).whole
      (numeral digits (digits.length + e)).fraction).magnitude =
    Decimal.magnitude ⟨Nat.ofDigitChars 10 digits 0, e⟩ := by
  unfold numeral Decimal.ofDigits
  split
  · -- Zeros in front: each of them is one place more, and none of them counts.
    have hexponent : -((List.replicate (-(digits.length + e)).toNat '0' ++ digits).length : Int) =
        e := by
      simp only [List.length_append, List.length_replicate]
      omega
    rw [hexponent, Nat.ofDigitChars_append, Nat.ofDigitChars_append,
      Nat.ofDigitChars_replicate_zero, Nat.ofDigitChars_cons, Nat.ofDigitChars_nil]
    rfl
  · split
    · -- Zeros behind: each of them is a factor ten, as the exponent says.
      have hzeros : ((digits.length : Int) + e).toNat - digits.length = e.toNat := by omega
      have hnegative : (-e).toNat = 0 := by omega
      rw [List.append_nil, Nat.ofDigitChars_append, Nat.ofDigitChars_replicate_zero, hzeros,
        Nat.mul_comm, Decimal.magnitude, Decimal.magnitude, hnegative]
      exact congrArg (Binary64.nearest · 1) (Nat.mul_one _)
    · -- The point in between: the digits behind it are counted by the exponent.
      have hexponent : -((digits.drop ((digits.length : Int) + e).toNat).length : Int) = e := by
        rw [List.length_drop]
        omega
      rw [List.take_append_drop, hexponent]

end NumberStyle

namespace Decimal

/-- A decimal without an exponent. -/
def numeral (d : Decimal) : Numeral :=
  let digits := Nat.toDigits 10 d.significand
  NumberStyle.numeral digits (digits.length + d.exponent)

variable (d : Decimal)

theorem wellFormed_numeral : d.numeral.WellFormed :=
  NumberStyle.wellFormed_numeral Nat.toDigits_ne_nil fun _ =>
    Nat.isDigit_of_mem_toDigits (by decide) (by decide)

/-- Plain text is that of the numeral. -/
theorem magnitudeText_plain : NumberStyle.plain.magnitudeText d = d.numeral.text :=
  NumberStyle.positional_eq_text Nat.toDigits_ne_nil

/-- The numeral of a decimal reads as the same double. -/
theorem value_numeral : d.numeral.value = d.toFloat := by
  have hmagnitude := NumberStyle.magnitude_numeral (Nat.toDigits 10 d.significand) d.exponent
  rw [Nat.ofDigitChars_ten_toDigits] at hmagnitude
  exact congrArg Binary64.toFloat hmagnitude

end Decimal

section

variable {x : Float}

/-- The text of a finite number that is not negative is a numeral. -/
theorem toList_plainNumber (hfinite : Binary64.isFinite x = true)
    (hsign : Binary64.isNegative x = false) :
    (plainNumber x).toList = (Decimal.shortest .up (Binary64.magnitude x)).numeral.text := by
  rw [plainNumber, if_pos hfinite, String.toList_ofList, NumberStyle.finiteText, hsign,
    if_neg Bool.false_ne_true, List.nil_append]
  exact Decimal.magnitudeText_plain _

/-- The numeral in the text of a finite number that is not negative reads as that number. -/
theorem value_shortest (hfinite : Binary64.isFinite x = true)
    (hsign : Binary64.isNegative x = false) :
    (Decimal.shortest .up (Binary64.magnitude x)).numeral.value = x := by
  rw [Decimal.value_numeral, Decimal.toFloat,
    Decimal.magnitude_shortest .up (of_decide_eq_true hfinite), Binary64.toFloat_magnitude hsign]

end

end Calculator
