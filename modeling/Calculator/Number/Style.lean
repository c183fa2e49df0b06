import Calculator.Number.Decimal

/-!
# How numbers are written

A `NumberStyle` fixes what the shortest digits of a double leave open: which way ties go, which
numbers are written positionally, and whether a whole number keeps a fraction. There are two:

* `NumberStyle.plain`  always positional, whole numbers bare: `4`, `0.285`, `-0`
* `NumberStyle.json`   whole numbers end in `.0`; positional while the leading digit stands for
  a power of ten from `-5` to `15`, otherwise with a signed exponent: `4.0`, `1e+16`, `5e-324`
-/

namespace Calculator

/-- The choices that the digits of a number leave open. -/
structure NumberStyle where
  /-- Which of two equally near decimals is written. -/
  tie : Decimal.Tie
  /-- Whether a whole number is followed by `.0`. -/
  keepsFraction : Bool
  /-- Whether a number whose leading digit stands for `10 ^ k` is written without an exponent. -/
  isPositional : Int → Bool

namespace NumberStyle

/-- The style of results, listings and token texts. -/
def plain : NumberStyle := ⟨.up, false, fun _ => true⟩

/-- The style of numbers in JSON. -/
def json : NumberStyle := ⟨.even, true, fun k => -5 ≤ k ∧ k ≤ 15⟩

/-- Digits with the point after the first `point` of them; zeros fill the places that have no
digit of their own. -/
def positional (keepsFraction : Bool) (digits : List Char) (point : Int) : List Char :=
  if point ≤ 0 then
    -- The point stands before all digits.
    '0' :: '.' :: (List.replicate (-point).toNat '0' ++ digits)
  else if digits.length ≤ point then
    -- The point stands behind all digits.
    digits ++ List.replicate (point.toNat - digits.length) '0' ++
      (if keepsFraction then ['.', '0'] else [])
  else
    digits.take point.toNat ++ '.' :: digits.drop point.toNat

/-- Digits with the point after the first one, and the power of ten of that digit. -/
def scientific (digits : List Char) (k : Int) : List Char :=
  digits.take 1 ++ (if digits.length ≤ 1 then [] else '.' :: digits.drop 1) ++
    'e' :: (if k < 0 then '-' else '+') :: Nat.toDigits 10 k.natAbs

/-- The text of a finite number without its sign. -/
def magnitudeText (style : NumberStyle) (d : Decimal) : List Char :=
  let digits := Nat.toDigits 10 d.significand
  let point := digits.length + d.exponent
  -- The leading digit stands one place before the point.
  if style.isPositional (point - 1) then positional style.keepsFraction digits point
  else scientific digits (point - 1)

def finiteText (style : NumberStyle) (x : Float) : List Char :=
  (if Binary64.isNegative x then ['-'] else []) ++
    style.magnitudeText (Decimal.shortest style.tie (Binary64.magnitude x))

end NumberStyle

/-- A number as results show it. Infinities are `inf` and `-inf`, and `NaN` has no sign. -/
def plainNumber (x : Float) : String :=
  if Binary64.isFinite x then String.ofList (NumberStyle.plain.finiteText x)
  else if Binary64.magnitude x ≠ Binary64.infinity then "NaN"
  else if Binary64.isNegative x then "-inf"
  else "inf"

/-- A number as JSON, which has a literal for finite numbers only. -/
def jsonNumber (x : Float) : String :=
  if Binary64.isFinite x then String.ofList (NumberStyle.json.finiteText x) else "null"

end Calculator
