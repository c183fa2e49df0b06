import Calculator.Text.Blank

/-!
# Strictness

Two independent switches that narrow what is accepted. Both are off by default; variables of the
process environment turn them on.
-/

namespace Calculator

/-- Which malformed inputs are rejected. -/
structure Strictness where
  /-- Reject a sigil inside a name, such as `$#AB` or `A$B`. -/
  identifiers : Bool
  /-- Reject `)` or `,` outside parentheses, and `(` that is never closed. -/
  parentheses : Bool
  deriving DecidableEq, Repr

namespace Strictness

def lenient : Strictness := ⟨false, false⟩

def strict : Strictness := ⟨true, true⟩

/-- Whether the text of a variable turns its switch on; case and outer blanks do not matter. -/
def isOn (text : String) : Bool :=
  (Text.trimChars text.toList).map Char.toLower ∈
    ["1", "true", "yes", "on"].map String.toList

/-- The switches set by the variables of a process environment. -/
def ofVariables (lookup : String → Option String) : Strictness :=
  let flag name := (lookup name).any isOn
  let both := flag "FORMULA_STRICT"
  ⟨both || flag "FORMULA_STRICT_IDENTIFIERS", both || flag "FORMULA_STRICT_PARENS"⟩

/-- One setting is at most as strict as another if no switch is on in the first only. -/
instance : LE Strictness where
  le s t := (s.identifiers → t.identifiers) ∧ (s.parentheses → t.parentheses)

end Strictness

end Calculator
