import Calculator.Proofs.ResultText

/-!
# Texts on one line

Numbers are written with digits, points, signs and letters, and JSON writes control characters with
others. So numbers and reports have no line breaks in them, whatever the names in a report are.

## Key results

- `Json.oneLine_string`, `Json.oneLine_object`: pieces of JSON
- `NumberStyle.oneLine_finiteText`, `oneLine_plainNumber`: numbers
- `oneLine_jsonReport`: reports
-/

namespace Calculator

/-! ### Texts on one line -/

/-- Whether a text has no control characters, and with them no line breaks. -/
def Text.OneLine (text : String) : Prop := ∀ c ∈ text.toList, 32 ≤ c.toNat

namespace Text.OneLine

variable {s t : String}

/-- Two texts on one line can be written side by side. -/
theorem append (hs : OneLine s) (ht : OneLine t) : OneLine (s ++ t) := by
  rw [OneLine, String.toList_append]
  exact List.forall_mem_append.2 ⟨hs, ht⟩

/-- So can several, with a text on one line between them. -/
theorem intercalate {texts : List String} (hs : OneLine s) (h : ∀ text ∈ texts, OneLine text) :
    OneLine (s.intercalate texts) := by
  induction texts with
  | nil => exact nofun
  | cons text rest ih =>
    obtain ⟨htext, hrest⟩ := List.forall_mem_cons.1 h
    cases rest with
    | nil => simpa using htext
    | cons next rest =>
      rw [String.intercalate_cons_cons]
      exact (htext.append hs).append (ih hrest)

end Text.OneLine

namespace Json

open Text

/-- Control characters are written with others. -/
theorem le_toNat_of_mem_escape {c d : Char} (h : d ∈ escape c) : 32 ≤ d.toNat := by
  suffices hall : (escape c).all (32 ≤ ·.toNat) = true by simpa using List.all_eq_true.1 hall d h
  -- There are only 32 control characters to look at.
  have hcontrol : ∀ n < 32, (escape (Char.ofNat n)).all (32 ≤ ·.toNat) = true := by decide +kernel
  rcases Nat.lt_or_ge c.toNat 32 with hlt | hge
  · simpa using hcontrol c.toNat hlt
  · -- Of the others, the quote and the backslash are escaped, and the rest stand for themselves.
    by_cases hquote : c = '"'
    · exact hquote ▸ rfl
    · by_cases hbackslash : c = '\\'
      · exact hbackslash ▸ rfl
      · simpa [escape_eq_self hquote hbackslash hge] using hge

/-- A JSON string is on one line, whatever is in it. -/
theorem oneLine_string (s : String) : OneLine (string s) := by
  intro c hc
  rw [string, String.toList_ofList, List.mem_cons, List.mem_append, List.mem_singleton,
    List.mem_flatMap] at hc
  rcases hc with rfl | ⟨_, -, hescape⟩ | rfl
  · decide
  · exact le_toNat_of_mem_escape hescape
  · decide

/-- Objects are on one line if their values are. -/
theorem oneLine_object {members : List (String × String)}
    (h : ∀ member ∈ members, OneLine member.2) : OneLine (object members) := by
  have hbraces : OneLine "\x7b" ∧ OneLine "\x7d" := by simp [OneLine]
  refine (hbraces.1.append (.intercalate (by simp [OneLine]) fun text htext => ?_)).append hbraces.2
  obtain ⟨member, hmem, rfl⟩ := List.mem_map.1 htext
  exact ((oneLine_string member.1).append (by simp [OneLine])).append (h member hmem)

end Json

/-! ### Numbers -/

namespace NumberStyle

open List (forall_mem_cons forall_mem_append)

/-- Digits are no control characters. -/
theorem le_toNat_of_mem_toDigits (n : Nat) : ∀ c ∈ Nat.toDigits 10 n, 32 ≤ c.toNat := by
  intro c hc
  have hdigit := Nat.isDigit_of_mem_toDigits (by decide) (by decide) hc
  have hrange := isDigit_iff_toNat.1 hdigit
  omega

section

variable {digits : List Char} (h : ∀ c ∈ digits, 32 ≤ c.toNat)
include h

/-- Nor is anything that is added to them in positional writing. -/
theorem le_toNat_of_mem_positional (keepsFraction : Bool) (point : Int) :
    ∀ c ∈ positional keepsFraction digits point, 32 ≤ c.toNat := by
  have hpoint : 32 ≤ '.'.toNat := by decide
  have hzeros : ∀ k, ∀ c ∈ List.replicate k '0', 32 ≤ c.toNat := fun k c hc =>
    List.eq_of_mem_replicate hc ▸ (by decide)
  unfold positional
  split
  · exact forall_mem_append.2 ⟨hzeros 1, forall_mem_cons.2
      ⟨hpoint, forall_mem_append.2 ⟨hzeros _, h⟩⟩⟩
  · split
    · refine forall_mem_append.2 ⟨forall_mem_append.2 ⟨h, hzeros _⟩, ?_⟩
      cases keepsFraction with
      | true => exact forall_mem_cons.2 ⟨hpoint, hzeros 1⟩
      | false => exact nofun
    · exact forall_mem_append.2 ⟨fun c hc => h c (List.mem_of_mem_take hc),
        forall_mem_cons.2 ⟨hpoint, fun c hc => h c (List.mem_of_mem_drop hc)⟩⟩

/-- Nor is anything in an exponent. -/
theorem le_toNat_of_mem_scientific (k : Int) : ∀ c ∈ scientific digits k, 32 ≤ c.toNat := by
  unfold scientific
  -- First digit, fraction, `e`, sign and exponent.
  refine forall_mem_append.2 ⟨forall_mem_append.2 ⟨fun c hc => h c (List.mem_of_mem_take hc), ?_⟩,
    forall_mem_cons.2 ⟨by decide, forall_mem_cons.2 ⟨?_, le_toNat_of_mem_toDigits _⟩⟩⟩
  · split
    · exact nofun
    · exact forall_mem_cons.2 ⟨by decide, fun c hc => h c (List.mem_of_mem_drop hc)⟩
  · split
    · decide
    · decide

end

/-- Numbers are written with digits, points, signs and an `e`. -/
theorem oneLine_finiteText (style : NumberStyle) (x : Float) :
    Text.OneLine (String.ofList (style.finiteText x)) := by
  rw [Text.OneLine, String.toList_ofList, finiteText]
  refine forall_mem_append.2 ⟨?_, ?_⟩
  · split
    · exact List.forall_mem_singleton.2 (by decide)
    · exact List.forall_mem_nil _
  · unfold magnitudeText
    simp only
    split
    · exact le_toNat_of_mem_positional (le_toNat_of_mem_toDigits _) _ _
    · exact le_toNat_of_mem_scientific (le_toNat_of_mem_toDigits _) _

end NumberStyle

/-- A number in a result is on one line. -/
theorem oneLine_plainNumber (x : Float) : Text.OneLine (plainNumber x) := by
  cases hfinite : Binary64.isFinite x with
  | true =>
    rw [plainNumber, if_pos hfinite]
    exact NumberStyle.plain.oneLine_finiteText x
  | false =>
    have hall : ∀ text ∈ wordsOfNumbers, Text.OneLine text := by
      simp [wordsOfNumbers, Text.OneLine]
    exact hall _ (plainNumber_mem_wordsOfNumbers hfinite)

/-! ### Reports -/

/-- What comes of an expression as JSON. -/
def jsonReport : Except Failure Value → String
  | .ok v => v.resultJson
  | .error e => e.json

/-- Reports are on one line. -/
theorem oneLine_jsonReport (result : Except Failure Value) : Text.OneLine (jsonReport result) := by
  cases result with
  | error e =>
    refine Json.oneLine_object (List.forall_mem_cons.2 ⟨Json.oneLine_string _, ?_⟩)
    exact List.forall_mem_singleton.2 (Json.oneLine_string _)
  | ok v =>
    refine Json.oneLine_object (List.forall_mem_singleton.2 ?_)
    match v with
    | .bool true | .bool false =>
      simp [Value.resultJson.content, Value.json, Json.bool, Text.OneLine]
    | .key name => exact Json.oneLine_string name
    -- A number without a JSON literal is written as a string.
    | .number x =>
      simp only [Value.resultJson.content, jsonNumber]
      split
      · exact NumberStyle.json.oneLine_finiteText x
      · exact Json.oneLine_string _

end Calculator
