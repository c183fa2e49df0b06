import Calculator.Number.Decimal

/-!
# Numerals

A numeral is digits, or digits, a point and digits. A run of digits and points is cut down to what
can be read (`Numeral.kept`): its second point goes with all behind it, and points at the end go as
well. `1.2.3` is cut to `1.2`, and both `1.` and `1..5` are cut to `1`. What is left is read by
`Numeral.ofText?`, which knows nothing about cutting and rejects what has two points or no digits.

`Numeral.ofRun` is the numeral at the start of a run, the longest one there is.

## Key results

* `isPrefixOf_ofRun`  the numeral of a run stands at its start
-/

namespace Calculator

/-- The digits of a number before and after its point. Without a fraction there is no point. -/
structure Numeral where
  whole : List Char
  fraction : List Char
  deriving DecidableEq, Repr

namespace Numeral

/-- Whether a numeral consists of digits, with at least one before the point. -/
structure WellFormed (n : Numeral) : Prop where
  whole_ne_nil : n.whole ≠ []
  isDigit_whole : ∀ c ∈ n.whole, c.isDigit = true
  isDigit_fraction : ∀ c ∈ n.fraction, c.isDigit = true

/-- The characters of a run that is read as one number. -/
def isRunChar (c : Char) : Bool := c.isDigit || c == '.'

/-- Where the second point of a run stands, or the length of a run that has no second point. -/
def secondPoint (run : List Char) : Nat :=
  ((run.zipIdx.filter (·.1 == '.'))[1]?).elim run.length Prod.snd

/-- The part of a run that is read: all before its second point, without points at the end. -/
def kept (run : List Char) : List Char :=
  ((run.take (secondPoint run)).reverse.dropWhile (· == '.')).reverse

/-- The number that a text of digits and at most one point stands for. The digits on one side of
the point may be missing, but not those on both. -/
def ofText? (text : List Char) : Option Numeral :=
  let whole := text.takeWhile Char.isDigit
  match text.dropWhile Char.isDigit with
  | [] => if whole = [] then none else some ⟨whole, []⟩
  | point :: fraction =>
    -- A second point, or a point alone, is no number.
    if point = '.' ∧ fraction.all Char.isDigit ∧ (whole ≠ [] ∨ fraction ≠ []) then
      some ⟨whole, fraction⟩
    else none

/-- The longest numeral at the start of a run. -/
def ofRun (run : List Char) : Numeral :=
  let whole := run.takeWhile Char.isDigit
  match run.dropWhile Char.isDigit with
  | '.' :: rest => ⟨whole, rest.takeWhile Char.isDigit⟩
  | _ => ⟨whole, []⟩

def text (n : Numeral) : List Char :=
  n.whole ++ (if n.fraction = [] then [] else '.' :: n.fraction)

def value (n : Numeral) : Float := (Decimal.ofDigits n.whole n.fraction).toFloat

/-- The numeral of a run stands at its start. -/
theorem isPrefixOf_ofRun (run : List Char) : (ofRun run).text <+: run := by
  have split := List.takeWhile_append_dropWhile (p := Char.isDigit) (l := run)
  unfold ofRun
  split
  · rename_i rest hrest
    -- There is a point behind the digits, which belongs to the numeral if a digit follows it.
    simp only [text]
    split
    · simpa using List.takeWhile_prefix _
    · rw [hrest] at split
      conv => rhs; rw [← split]
      exact (List.prefix_append_right_inj _).2
        (List.cons_prefix_cons.2 ⟨rfl, List.takeWhile_prefix _⟩)
  · simpa [text] using List.takeWhile_prefix _

end Numeral

end Calculator
