/-!
# Blank characters

The characters with the Unicode property `White_Space`, and text without them at its two ends.
Lines are trimmed by this rule. The scanner has a narrower one of its own: between tokens it skips
the plain space only.

## Key results

* `trimChars_sublist`            trimming only takes characters away
* `isBlank_of_trimChars_eq_nil`  where trimming leaves nothing, there are only blanks
-/

namespace Calculator.Text

/-- The first and last code point of each range of blank characters. -/
def blankRanges : List (Nat × Nat) :=
  [(0x09, 0x0D), (0x20, 0x20), (0x85, 0x85), (0xA0, 0xA0), (0x1680, 0x1680), (0x2000, 0x200A),
   (0x2028, 0x2029), (0x202F, 0x202F), (0x205F, 0x205F), (0x3000, 0x3000)]

/-- Whether a character is blank. -/
def isBlank (c : Char) : Bool :=
  blankRanges.any fun (first, last) => first ≤ c.toNat && c.toNat ≤ last

/-- A text without the blanks at its end. -/
def trimEnd (cs : List Char) : List Char := (cs.reverse.dropWhile isBlank).reverse

/-- A text without the blanks at its start and end. -/
def trimChars (cs : List Char) : List Char := trimEnd (cs.dropWhile isBlank)

/-- A string without the blanks at its start and end. -/
def trim (s : String) : String := String.ofList (trimChars s.toList)

theorem toList_trim (s : String) : (trim s).toList = trimChars s.toList := String.toList_ofList

/-- Trimming only takes characters away. -/
theorem trimChars_sublist (cs : List Char) : (trimChars cs).Sublist cs := by
  -- The blanks at the end are those at the start of the reversed text.
  have hend : (trimChars cs).Sublist (cs.dropWhile isBlank).reverse.reverse :=
    (List.dropWhile_sublist isBlank).reverse
  rw [List.reverse_reverse] at hend
  exact hend.trans (List.dropWhile_sublist isBlank)

/-- Where trimming leaves nothing, there are only blanks. -/
theorem isBlank_of_trimChars_eq_nil {cs : List Char} (h : trimChars cs = []) {c : Char}
    (hc : c ∈ cs) : isBlank c = true := by
  have hall : ∀ {ds : List Char}, ds.dropWhile isBlank = [] → ∀ d ∈ ds, isBlank d = true := by
    intro ds hnil d hd
    rw [← List.takeWhile_append_dropWhile (p := isBlank) (l := ds), hnil, List.append_nil] at hd
    exact List.all_eq_true.1 List.all_takeWhile d hd
  -- A character of the text was cut off at the start or at the end.
  rw [← List.takeWhile_append_dropWhile (p := isBlank) (l := cs)] at hc
  rcases List.mem_append.1 hc with hc | hc
  · exact List.all_eq_true.1 List.all_takeWhile c hc
  · exact hall (List.reverse_eq_nil_iff.1 h) c (List.mem_reverse.2 hc)

end Calculator.Text
