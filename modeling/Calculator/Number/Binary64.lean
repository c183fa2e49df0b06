/-!
# Bit patterns of doubles

A nonnegative double is ordered like its bit pattern, and a finite pattern `b` stands for
`significand b * 2 ^ scale b` units, one unit being `2 ^ -1074`, the smallest positive double.
The scale is kept as a natural number, so subnormal and normal patterns need no case split:

* `scale b`        how far the last bit of the significand lies above one unit
* `significand b`  the remaining integer, below `2 ^ 53`
* `units b`        the value itself, a whole number of units

`nearest num den` is the pattern of the double closest to `num / den`. It finds the scale from
the whole number of units in the ratio, rounds once at that scale, and adds the two parts of the
pattern: a significand that rounds up to `2 ^ 53` carries into the scale by itself.

## Key results

* `scale_add_significand`  a pattern is its scale above its significand
* `nearest_mul_right`      rounding depends on the ratio alone
* `nearest_units`          the value of a finite pattern rounds to that pattern
-/

namespace Calculator.Binary64

/-- Powers of natural numbers are those of the core library, whatever monoids are in scope. -/
local instance natPow : Pow Nat Nat := instPowNat

/-- One unit is `2 ^ -unitExponent`. -/
def unitExponent : Nat := 1074

/-- The pattern of positive infinity. Finite patterns lie below it and that of `NaN` above. -/
def infinity : Nat := 2047 * 2 ^ (52 : Nat)

/-- How many powers of two the last bit of a significand lies above one unit. -/
def scale (b : Nat) : Nat := b / 2 ^ (52 : Nat) - 1

/-- The integer significand of a finite pattern. -/
def significand (b : Nat) : Nat := b - scale b * 2 ^ (52 : Nat)

/-- The value of a finite pattern in units. -/
def units (b : Nat) : Nat := significand b * 2 ^ scale b

/-- The quotient `n / d` rounded to the nearest integer, halves to the even one. -/
def divRoundEven (n d : Nat) : Nat :=
  let q := n / d
  let r := n % d
  if 2 * r < d ∨ (2 * r = d ∧ q % 2 = 0) then q else q + 1

/-- The pattern of the double nearest to `num / den`, halves to the even significand. -/
def nearest (num den : Nat) : Nat :=
  let n := num * 2 ^ unitExponent
  let s := (n / den).log2 - 52
  -- Rounding up at the largest scale gives the pattern of infinity, and so does all beyond.
  min (s * 2 ^ (52 : Nat) + divRoundEven n (den * 2 ^ s)) infinity

/-- The pattern of a double without its sign bit. -/
def magnitude (x : Float) : Nat := x.toBits.toNat % 2 ^ (63 : Nat)

/-- Whether the sign bit of a double is set. -/
def isNegative (x : Float) : Bool := 2 ^ (63 : Nat) ≤ x.toBits.toNat

/-- Whether a double is a number, neither infinite nor `NaN`. -/
def isFinite (x : Float) : Bool := magnitude x < infinity

/-- The nonnegative double with the given pattern. -/
def toFloat (b : Nat) : Float := Float.ofBits (UInt64.ofNat b)

/-! ### The two halves of a pattern -/

/-- A pattern is its scale above its significand. -/
theorem scale_add_significand (b : Nat) : scale b * 2 ^ (52 : Nat) + significand b = b := by
  unfold significand scale
  omega

/-- Significands fit in 53 bits. -/
theorem significand_lt (b : Nat) : significand b < 2 ^ (53 : Nat) := by
  unfold significand scale
  omega

/-- Above scale zero the leading bit of the significand is set. -/
theorem le_significand {b : Nat} (h : 0 < scale b) : 2 ^ (52 : Nat) ≤ significand b := by
  unfold significand scale at *
  omega

/-! ### Rounding -/

/-- A whole quotient needs no rounding. -/
theorem divRoundEven_mul (k : Nat) {d : Nat} (hd : 0 < d) : divRoundEven (k * d) d = k := by
  simp [divRoundEven, Nat.mul_div_cancel _ hd, hd]

/-- A common factor does not change a rounded quotient. -/
theorem divRoundEven_mul_right (n d : Nat) {c : Nat} (hc : 0 < c) :
    divRoundEven (n * c) (d * c) = divRoundEven n d := by
  simp only [divRoundEven, Nat.mul_div_mul_right _ _ hc, Nat.mul_mod_mul_right]
  -- Multiplying both sides keeps the remainder below, at or above the half.
  have below : 2 * (n % d * c) < d * c ↔ 2 * (n % d) < d := by
    rw [← Nat.mul_assoc]
    exact Nat.mul_lt_mul_right hc
  have half : 2 * (n % d * c) = d * c ↔ 2 * (n % d) = d := by
    rw [← Nat.mul_assoc]
    exact Nat.mul_left_inj (Nat.ne_of_gt hc)
  simp only [below, half]

/-- Zero is a pattern of its own. -/
theorem nearest_zero (den : Nat) : nearest 0 den = 0 := by
  simp [nearest, divRoundEven]
  exact .inl Eq.symm

/-- Rounding depends on the ratio alone. -/
theorem nearest_mul_right (num den : Nat) {c : Nat} (hc : 0 < c) :
    nearest (num * c) (den * c) = nearest num den := by
  simp only [nearest]
  -- The factor drops out of the quotient that gives the scale and of the one that is rounded.
  rw [Nat.mul_right_comm num, Nat.mul_div_mul_right _ _ hc, Nat.mul_right_comm den,
    divRoundEven_mul_right _ _ hc]

/-- The scale is found from the whole number of units. -/
theorem log2_units (b : Nat) : (units b).log2 - 52 = scale b := by
  have hlt := significand_lt b
  unfold units
  rcases Nat.eq_zero_or_pos (scale b) with h | h
  · -- Without a scale the value is the significand, which has at most 53 bits.
    rw [h, Nat.pow_zero, Nat.mul_one]
    by_cases h0 : significand b = 0
    · rw [h0, Nat.log2_zero]
    · have := (Nat.log2_lt h0).2 hlt
      omega
  · -- Otherwise the significand has exactly 53 bits, and the scale shifts them up.
    have hle := le_significand h
    have hp := Nat.two_pow_pos (scale b)
    have : (significand b * 2 ^ scale b).log2 = 52 + scale b := by
      rw [Nat.log2_eq_iff (Nat.mul_ne_zero (by omega) (by omega)),
        show 52 + scale b + 1 = 53 + scale b by omega, Nat.pow_add, Nat.pow_add]
      exact ⟨Nat.mul_le_mul_right _ hle, Nat.mul_lt_mul_of_pos_right hlt hp⟩
    omega

/-- The value of a finite pattern rounds to that pattern. -/
theorem nearest_units {b : Nat} (hb : b < infinity) : nearest (units b) (2 ^ unitExponent) = b := by
  simp only [nearest]
  have hp := Nat.two_pow_pos unitExponent
  have hs := Nat.two_pow_pos (scale b)
  have hn : units b * 2 ^ unitExponent = significand b * (2 ^ unitExponent * 2 ^ scale b) := by
    rw [units, Nat.mul_assoc, Nat.mul_comm (2 ^ scale b)]
  -- The scale found is that of the pattern, and at this scale there is nothing to round.
  rw [Nat.mul_div_cancel _ hp, log2_units, hn, divRoundEven_mul _ (Nat.mul_pos hp hs),
    scale_add_significand]
  omega

end Calculator.Binary64
