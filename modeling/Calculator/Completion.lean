import Calculator.Builtin
import Calculator.Token.Scan

/-!
# Completion of names

The run of name characters that ends at the cursor is completed, to the end of a bound name if it
starts with a sigil and to the name of a function otherwise.
-/

namespace Calculator

/-- A way to complete a name. -/
structure Candidate where
  /-- What a menu shows. -/
  display : String
  /-- What takes the place of the run. -/
  replacement : String
  deriving DecidableEq, Repr

/-- The run to complete, by the byte it starts at, and the candidates for it. -/
structure Completion where
  start : Nat
  candidates : List Candidate
  deriving DecidableEq, Repr

namespace Completion

/-- The characters that lie in the first `bytes` bytes of a text. -/
def takeBytes : Nat → List Char → List Char
  | _, [] => []
  | bytes, c :: cs => if bytes < c.utf8Size then [] else c :: takeBytes (bytes - c.utf8Size) cs

/-- The longest run of name characters at the end of a text. -/
def nameRun (cs : List Char) : List Char := (cs.reverse.takeWhile isNameChar).reverse

/-- The candidates for a run, given the bound names. -/
def candidatesFor (bound : List String) : List Char → List Candidate
  | [] => []
  | first :: rest =>
    if isSigil first then
      -- A sigil asks for a bound name and is kept in front of it.
      (bound.filter fun name => rest.isPrefixOf name.toList).map fun name =>
        ⟨name, String.ofList (first :: name.toList)⟩
    else
      -- Without a sigil it is the name of a function, whose call is opened at once.
      (Builtin.all.filter fun b => (first :: rest).isPrefixOf b.name.toList).map fun b =>
        ⟨b.name, b.name ++ "("⟩

/-- Complete the name that ends at the byte `cursor` of a line. -/
def complete (bound : List String) (line : String) (cursor : Nat) : Completion :=
  let run := nameRun (takeBytes cursor line.toList)
  -- Name characters are ASCII, so the run has as many bytes as characters.
  ⟨cursor - run.length, candidatesFor bound run⟩

end Completion

end Calculator
