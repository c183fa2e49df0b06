import Calculator.Number.Binary64

/-!
# Decimals and the doubles they stand for

A `Decimal` is `significand * 10 ^ exponent`. Reading one rounds once, to the nearest double.

Writing a double goes the other way. Every finite double is a whole multiple of `10 ^ -1074`, so
its digits are those of the integer `units b * 5 ^ 1074`, and cutting that integer after `n`
digits leaves two neighbours on the grid of `n`-digit decimals. `shortest` takes the first grid on
which a neighbour reads back, and of two such neighbours the nearer one. Rounding keeps the order
of numbers, so if any point of a grid reads back, one of the two neighbours does.

## Key results

* `magnitude_normalize`  zeros at the end of a significand carry no value
* `magnitude_exact`      the full expansion of a double reads back
* `magnitude_shortest`   so does the shortest decimal
-/

namespace Calculator

/-- The number `significand * 10 ^ exponent`. -/
structure Decimal where
  significand : Nat
  exponent : Int
  deriving DecidableEq, Repr

namespace Decimal

attribute [local instance] Binary64.natPow

/-- The pattern of the double nearest to a decimal. -/
def magnitude (d : Decimal) : Nat :=
  Binary64.nearest (d.significand * 10 ^ d.exponent.toNat) (10 ^ (-d.exponent).toNat)

def toFloat (d : Decimal) : Float := Binary64.toFloat d.magnitude

/-- The same number without zeros at the end of its significand; zero itself has exponent zero. -/
def normalize (d : Decimal) : Decimal :=
  if d.significand = 0 then ⟨0, 0⟩
  else if d.significand % 10 = 0 then normalize ⟨d.significand / 10, d.exponent + 1⟩
  else d
termination_by d.significand
decreasing_by exact Nat.div_lt_self (by omega) (by omega)

/-- The decimal of a whole part and the digits after the point. -/
def ofDigits (whole fraction : List Char) : Decimal :=
  ⟨Nat.ofDigitChars 10 (whole ++ fraction) 0, -(fraction.length : Int)⟩

/-! ### Which way a tie goes -/

/-- What to write when two decimals of the same length are equally near. -/
inductive Tie where
  /-- The larger one. -/
  | up
  /-- The one whose last digit is even. -/
  | even
  deriving DecidableEq, Repr

/-- The two neighbours of `a` among the multiples of `unit`, counted in units, the nearer first. -/
def neighbours (tie : Tie) (a unit : Nat) : List Nat :=
  let q := a / unit
  let r := a % unit
  -- The point below comes first if it is nearer, or if a tie goes to it.
  if 2 * r < unit ∨ (2 * r = unit ∧ tie = .even ∧ q % 2 = 0) then [q, q + 1] else [q + 1, q]

/-! ### The shortest decimal -/

/-- The double with pattern `b` written out in full. -/
def exact (b : Nat) : Decimal :=
  ⟨Binary64.units b * 5 ^ Binary64.unitExponent, -Binary64.unitExponent⟩

/-- On the grid that leaves the last `dropped` digits of a decimal out, the neighbour of it that
reads back as the double with pattern `b`, and the nearer one if both do. -/
def reading? (tie : Tie) (b : Nat) (d : Decimal) (dropped : Nat) : Option Decimal :=
  ((neighbours tie d.significand (10 ^ dropped)).map fun m =>
    ⟨m, d.exponent + dropped⟩).find? (·.magnitude = b)

/-- A decimal with the fewest digits that reads back as the double with pattern `b`, and the
nearest of those. Seventeen digits are always enough; the full expansion stands behind them. -/
def shortest (tie : Tie) (b : Nat) : Decimal :=
  let full := exact b
  let width := (Nat.toDigits 10 full.significand).length
  (((List.range' 1 17).findSome? fun n =>
    reading? tie b full (width - n)).getD full).normalize

/-! ### Reading back -/

/-- A zero at the end of a significand carries no value. -/
theorem magnitude_mul_ten (m : Nat) (e : Int) :
    magnitude ⟨m * 10, e⟩ = magnitude ⟨m, e + 1⟩ := by
  simp only [magnitude]
  -- With places after the point the zero takes up one of them; otherwise it is one more factor ten.
  rcases Int.lt_or_le e 0 with h | h
  · rw [show e.toNat = 0 by omega, show (e + 1).toNat = 0 by omega,
      show (-e).toNat = (-(e + 1)).toNat + 1 by omega, Nat.pow_succ, Nat.mul_right_comm]
    exact Binary64.nearest_mul_right _ _ (by decide)
  · rw [show (-e).toNat = (-(e + 1)).toNat by omega, show (e + 1).toNat = e.toNat + 1 by omega,
      Nat.pow_succ, Nat.mul_right_comm, Nat.mul_assoc]

/-- Zeros at the end of a significand carry no value. -/
theorem magnitude_normalize (d : Decimal) : d.normalize.magnitude = d.magnitude := by
  fun_induction normalize d with
  | case1 d h => simp only [magnitude, h, Nat.zero_mul, Binary64.nearest_zero]
  | case2 d h0 h10 ih =>
    rw [ih, ← magnitude_mul_ten, Nat.div_mul_cancel (Nat.dvd_of_mod_eq_zero h10)]
  | case3 => rfl

/-- Powers of two below the line become powers of ten. -/
theorem nearest_mul_five_pow (m k : Nat) :
    Binary64.nearest (m * 5 ^ k) (10 ^ k) = Binary64.nearest m (2 ^ k) := by
  rw [show (10 : Nat) ^ k = 2 ^ k * 5 ^ k from Nat.mul_pow 2 5 k]
  exact Binary64.nearest_mul_right m (2 ^ k) (Nat.pow_pos (by decide))

/-- The pattern of a decimal that has places after the point only. -/
theorem magnitude_neg (m k : Nat) : magnitude ⟨m, -k⟩ = Binary64.nearest m (10 ^ k) := by
  simp only [magnitude, Int.toNat_neg_natCast, Int.neg_neg, Int.toNat_natCast, Nat.pow_zero,
    Nat.mul_one]

/-- The full expansion of a double reads back. -/
theorem magnitude_exact {b : Nat} (hb : b < Binary64.infinity) : (exact b).magnitude = b :=
  (magnitude_neg _ _).trans ((nearest_mul_five_pow _ _).trans (Binary64.nearest_units hb))

/-- The shortest decimal of a double reads back. -/
theorem magnitude_shortest (tie : Tie) {b : Nat} (hb : b < Binary64.infinity) :
    (shortest tie b).magnitude = b := by
  simp only [shortest, magnitude_normalize]
  cases h : (List.range' 1 17).findSome? fun n =>
      reading? tie b (exact b) ((Nat.toDigits 10 (exact b).significand).length - n) with
  -- No grid of up to seventeen digits had a reading, so the full expansion is written.
  | none => exact magnitude_exact hb
  | some d =>
    -- The search accepts only what reads back.
    obtain ⟨n, -, hn⟩ := List.exists_of_findSome?_eq_some h
    simpa using List.find?_some hn

end Decimal

end Calculator
