import Calculator.Proofs.NumeralRun
import Calculator.Proofs.ScanVerdict

/-!
# Numbers are always scanned

Reading a number could fail: what is kept of a run of digits and points is read on its own, and the
digit in front would be reported if that were impossible. But behind a digit there is always a
numeral to be kept, the longest one at the start of the run, so a text goes on behind its run
wherever the points in it are. A digit is never what a scan error reports.

## Key results

- `isDigit_eq_false_of_offends`: digits may stand anywhere
- `scanFrom_longest_numeral`: what is kept, what is scanned, and what is reported
-/

namespace Calculator.Token

open Numeral (isRunChar kept ofText? IsLongest)

/-- A digit may stand behind any character. -/
theorem isDigit_eq_false_of_offends {strict : Bool} {previous : Option Char} {c : Char}
    (h : Offends strict previous c) : c.isDigit = false := by
  refine Bool.eq_false_iff.2 fun hdigit => ?_
  cases h with
  -- Digits belong to the characters of expressions.
  | foreign hnot =>
    have hallowed : isAllowed c = true :=
      isAllowed_iff.2 (.inr (.inl (isRunChar_of_isDigit hdigit)))
    exact nomatch hallowed.symm.trans hnot
  | leadingPoint => exact absurd hdigit (by decide)
  -- A sigil may be in a name, and a digit may not.
  | innerSigil _ _ _ hsigil =>
    have hname : isNameChar c = true := isNameChar_iff.2 (.inr hsigil)
    exact nomatch hdigit.symm.trans (isDigit_eq_false_of_isNameChar hname)

/-- Of a run of digits and points that begins with a digit, the longest numeral at its start is
kept. A text that begins with a digit begins with such a run, and however strict identifiers are,
the numeral is read as a number, and scanning goes on behind the whole run. So no text is rejected
for one of its digits. -/
theorem scanFrom_longest_numeral :
    (∀ (c : Char) (run : List Char), c.isDigit = true → (∀ d ∈ run, isRunChar d = true) →
      IsLongest (c :: run) (kept (c :: run))) ∧
    (∀ (c : Char) (cs : List Char), c.isDigit = true →
      ∃ n : Numeral, ofText? (kept (c :: cs.takeWhile isRunChar)) = some n ∧
        n.text = kept (c :: cs.takeWhile isRunChar) ∧
        ∀ strict position, scanFrom strict position (c :: cs) =
          (number n.value :: ·) <$> scanFrom strict
            (position + (c :: cs.takeWhile isRunChar).length) (cs.dropWhile isRunChar)) ∧
    ∀ (strictness : Strictness) (text : String) (c : Char) (position : Nat),
      scan strictness text = .error (.invalidCharacter c position) → c.isDigit = false := by
  refine ⟨fun c run hc hrun => Numeral.isLongest_kept hc hrun, ?_, ?_⟩
  · intro c cs hc
    obtain ⟨run, rest, rfl, hrun, hrest⟩ := List.exists_span isRunChar cs
    rw [List.takeWhile_append_of_head? hrun hrest, List.dropWhile_append_of_head? hrun hrest]
    obtain ⟨n, hn, hstarts⟩ := Numeral.exists_starts hc hrun
    -- Cutting and matching find the same numeral.
    have hkept : kept (c :: run) = n.text := hstarts.kept_eq hn
    refine ⟨n, ?_, hkept.symm, fun strict position => ?_⟩
    · rw [hkept]
      exact Numeral.ofText?_text hn
    · rw [scanFrom_number strict position hc hrun hrest, hstarts.ofRun_eq hn, List.length_cons,
        Nat.add_right_comm, Nat.add_assoc]
  · intro strictness text c position herror
    -- What is reported offends where it stands.
    obtain ⟨before, after, -, -, -, hoffends⟩ := scan_error_iff.1 herror
    exact isDigit_eq_false_of_offends hoffends

/-- Of `1..5` the `1` is kept. In `1..5a` it is read, and the letter behind the run is rejected. -/
theorem scanFrom_longest_numeral_two_points :
    IsLongest ['1', '.', '.', '5'] ['1'] ∧
      (∃ n : Numeral, n.text = ['1'] ∧ scanFrom true 0 ['1', '.', '.', '5', 'a'] =
        (number n.value :: ·) <$> scanFrom true 4 ['a']) ∧
      scan .lenient "1..5a" = .error (.invalidCharacter 'a' 4) ∧ 'a'.isDigit = false := by
  obtain ⟨hlongest, hscan, hreported⟩ := scanFrom_longest_numeral
  have hkept : kept ['1', '.', '.', '5'] = ['1'] := by decide
  obtain ⟨n, -, htext, hscanned⟩ := hscan '1' ['.', '.', '5', 'a'] rfl
  -- No token begins with a small letter.
  have hletter : scanFrom false 4 ['a'] = .error (.invalidCharacter 'a' 4) :=
    scanFrom_other false 4 [] (by decide) rfl rfl rfl
  have herror : scan .lenient "1..5a" = .error (.invalidCharacter 'a' 4) :=
    (hscanned false 0).trans (congrArg _ hletter)
  have hrun : ∀ d ∈ ['.', '.', '5'], isRunChar d = true := List.all_eq_true.1 rfl
  refine ⟨?_, ⟨n, htext.trans hkept, hscanned true 0⟩, herror, hreported _ _ _ _ herror⟩
  exact hkept ▸ hlongest '1' ['.', '.', '5'] rfl hrun

end Calculator.Token
