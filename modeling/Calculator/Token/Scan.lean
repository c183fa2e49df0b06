import Calculator.Number.Numeral
import Calculator.Strictness
import Calculator.Token

/-!
# Scanning

A text is read from left to right. A space is skipped; a digit starts a run of digits and points,
read as one number; a letter or sigil starts a run of letters and sigils, read as one name; any
other character is a token by itself or not allowed. Runs are as long as possible, so `PI2` is a
name and a number and `A$B` is one name. Of a run of digits and points only the part that is kept
counts, so `1.2.3` is the number `1.2`.

With strict identifiers a sigil may only come first in its run.

Every accepted character is ASCII, so the position in a `ScanError` is the offset of the rejected
character both in characters and in bytes.
-/

namespace Calculator

/-- Why a text has no tokens. -/
inductive ScanError where
  /-- No token may start or continue with this character at this position. -/
  | invalidCharacter (char : Char) (position : Nat)
  deriving DecidableEq, Repr

/-- The wording of a scan error. -/
def ScanError.message : ScanError → String
  | invalidCharacter char position =>
    "Invalid character '" ++ String.singleton char ++ "' at position " ++ position.repr

/-- Whether a character marks a reference or a key. -/
def isSigil (c : Char) : Bool := c == '$' || c == '#'

/-- Whether a character may stand in a name run. -/
def isNameChar (c : Char) : Bool := c.isUpper || isSigil c

namespace Token

/-- The token of a name run, given by its first character and the rest. -/
def ofNameRun (first : Char) (rest : List Char) : Token :=
  if first = '$' then reference (String.ofList rest)
  else if first = '#' then key (String.ofList rest)
  -- Sigils behind the first letter are part of the name.
  else function (String.ofList (first :: rest))

/-- The tokens of a text that starts `position` characters into the scanned one. With `strict`, a
sigil inside a name is rejected. -/
def scanFrom (strict : Bool) (position : Nat) : List Char → Except ScanError (List Token)
  | [] => .ok []
  | c :: cs =>
    if c = ' ' then
      scanFrom strict (position + 1) cs
    else if c.isDigit then
      let run := cs.takeWhile Numeral.isRunChar
      match Numeral.ofText? (Numeral.kept (c :: run)) with
      | some n =>
        (number n.value :: ·) <$>
          scanFrom strict (position + 1 + run.length) (cs.dropWhile Numeral.isRunChar)
      -- No other token starts with a digit.
      | none => .error (.invalidCharacter c position)
    else if isNameChar c then
      let run := cs.takeWhile isNameChar
      let letters := run.takeWhile Char.isUpper
      -- What follows the letters of a run, if anything does, is a sigil.
      match strict, run.dropWhile Char.isUpper with
      | true, sigil :: _ => .error (.invalidCharacter sigil (position + 1 + letters.length))
      | _, _ =>
        (ofNameRun c run :: ·) <$>
          scanFrom strict (position + 1 + run.length) (cs.dropWhile isNameChar)
    else
      match ofSymbol? c with
      | some token => (token :: ·) <$> scanFrom strict (position + 1) cs
      | none => .error (.invalidCharacter c position)
termination_by cs => cs.length
decreasing_by
  · exact Nat.lt_succ_self _
  · exact Nat.lt_succ_of_le (List.dropWhile_suffix _).length_le
  · exact Nat.lt_succ_of_le (List.dropWhile_suffix _).length_le
  · exact Nat.lt_succ_self _

/-- The tokens of a text. -/
def scan (strictness : Strictness) (text : String) : Except ScanError (List Token) :=
  scanFrom strictness.identifiers 0 text.toList

end Token

end Calculator
