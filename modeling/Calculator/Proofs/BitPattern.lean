import Calculator.Number.Binary64
import Mathlib

/-!
# Doubles and their bit patterns

A double is given by its bit pattern, with one pattern for all of `NaN`. Making a double out of a
pattern and looking at its bits gives the pattern again, unless it is that of another `NaN`. Every
number with a clear sign bit is therefore the double of its magnitude, and patterns up to infinity
are those of different doubles.

## Key results

- `toBits_ofBits`: a valid pattern is that of the double made of it
- `valid_of_le`: the patterns up to infinity are valid
- `toFloat_magnitude`: a double without a sign bit is that of its magnitude
- `eq_of_magnitude_eq`, `eq_of_infinity_lt`: when doubles are equal
-/

namespace Calculator.Binary64

open Float.Model (Format)
open Float.Model.UnpackedFloat

attribute [local instance] natPow

/-- The bits of a double made of a valid pattern are that pattern. -/
theorem toBits_ofBits {bits : UInt64} (h : Format.binary64.Valid bits.toBitVec) :
    (Float.ofBits bits).toBits = bits :=
  UInt64.toBitVec_inj.1 (pack_unpack_of_valid h)

section

variable (b : BitVec Format.binary64.numBits)

/-- The mantissa of a pattern as a number: the lowest 52 bits. -/
theorem toNat_unpackMantissa : (unpackMantissa b).toNat = b.toNat % 2 ^ (52 : Nat) := by
  simp [unpackMantissa_def]

/-- The exponent of a pattern as a number: the eleven bits above the mantissa. -/
theorem toNat_unpackExponent :
    (unpackExponent b).toNat = b.toNat / 2 ^ (52 : Nat) % 2 ^ (11 : Nat) := by
  simp [unpackExponent_def, Nat.shiftRight_eq_div_pow]

end

/-- Up to infinity every pattern is valid. -/
theorem valid_of_le {b : BitVec Format.binary64.numBits} (h : b.toNat ≤ infinity) :
    Format.binary64.Valid b := by
  -- Only a pattern with all exponent bits set may be invalid, and then the mantissa must vanish.
  refine ⟨fun htop hnonzero => absurd (BitVec.eq_of_toNat_eq ?_) hnonzero⟩
  have hexponent : b.toNat / 2 ^ (52 : Nat) % 2 ^ (11 : Nat) = 2047 := by
    rw [← toNat_unpackExponent, htop]
    rfl
  unfold infinity at h
  rw [toNat_unpackMantissa]
  show b.toNat % 2 ^ (52 : Nat) = 0
  omega

section

variable {b : Nat}

/-- The bits of a nonnegative double are its pattern. -/
theorem toNat_toBits_toFloat (h : b ≤ infinity) : (toFloat b).toBits.toNat = b := by
  have hlt : b < 2 ^ (64 : Nat) := by
    unfold infinity at h
    omega
  have hnat : (UInt64.ofNat b).toNat = b := UInt64.toNat_ofNat_of_lt' hlt
  have hvalid : Format.binary64.Valid (UInt64.ofNat b).toBitVec :=
    valid_of_le (Nat.le_trans (Nat.le_of_eq hnat) h)
  rw [toFloat, toBits_ofBits hvalid, hnat]

/-- Patterns up to infinity leave the sign bit clear. -/
@[simp] theorem isNegative_toFloat (h : b ≤ infinity) : isNegative (toFloat b) = false := by
  rw [isNegative, toNat_toBits_toFloat h, decide_eq_false_iff_not]
  unfold infinity at h
  omega

end

/-- A double with a clear sign bit is that of its magnitude. -/
theorem toFloat_magnitude {x : Float} (h : isNegative x = false) : toFloat (magnitude x) = x := by
  have hlt : x.toBits.toNat < 2 ^ (63 : Nat) := Nat.lt_of_not_le (of_decide_eq_false h)
  rw [magnitude, Nat.mod_eq_of_lt hlt, toFloat, UInt64.ofNat_toNat, Float.ofBits_toBits]

section

variable {x y : Float}

/-- A double is given by its magnitude and its sign. -/
theorem eq_of_magnitude_eq (hmagnitude : magnitude x = magnitude y)
    (hsign : isNegative x = isNegative y) : x = y := by
  have hx := x.toBits.toNat_lt
  have hy := y.toBits.toNat_lt
  simp only [isNegative, decide_eq_decide] at hsign
  unfold magnitude at hmagnitude
  -- The sign bit is the difference between the bits and the magnitude.
  exact Float.toBits_inj.1 (UInt64.toNat_inj.1 (by omega))

/-- Above infinity there is only one pattern that a double has. -/
theorem toBits_of_infinity_lt (h : infinity < magnitude x) :
    x.toBits.toBitVec = packedNaN Format.binary64 := by
  unfold infinity magnitude at h
  have hvalid : Format.binary64.Valid x.toBits.toBitVec := x.toModel.valid
  refine hvalid.eq_packedNaN (BitVec.eq_of_toNat_eq ?_) fun hzero => ?_
  · -- All bits of the exponent are set.
    rw [toNat_unpackExponent]
    show x.toBits.toNat / 2 ^ (52 : Nat) % 2 ^ (11 : Nat) = 2047
    omega
  · -- With no bit of the mantissa it would be the pattern of infinity.
    have hmantissa : x.toBits.toNat % 2 ^ (52 : Nat) = 0 := by
      have htoNat := toNat_unpackMantissa x.toBits.toBitVec
      rw [hzero] at htoNat
      exact htoNat.symm
    omega

/-- All doubles that are no numbers are equal. -/
theorem eq_of_infinity_lt (hx : infinity < magnitude x) (hy : infinity < magnitude y) : x = y :=
  Float.toBits_inj.1 (UInt64.toBitVec_inj.1
    ((toBits_of_infinity_lt hx).trans (toBits_of_infinity_lt hy).symm))

end

end Calculator.Binary64
