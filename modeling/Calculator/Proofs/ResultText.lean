import Calculator.Proofs.Footprint
import Calculator.Proofs.NumberReading
import Calculator.Proofs.TokenText
import Calculator.Report

/-!
# The text of a result says what it is

Numbers, truth values and keys are told apart by the first character of their text, and each kind
has different texts for different values. In JSON, infinities and `NaN` are strings, and so are
keys. There a key with a name like `inf` would look like a number. But the names of keys that come
of a calculation consist of capital letters and sigils, if the environment holds no keys.

## Key results

- `Value.text_injective`: texts of values
- `Value.resultJson_injective`: JSON of values whose keys are named by capital letters and sigils
- `namedInCapitals_of_calculate`: the keys that come of calculations are named so
- `calculate_text_injective`: all of it about the results of calculations
-/

namespace Calculator

variable {v w : Value}

namespace Value

/-! ### Texts -/

/-- The kind of value whose text begins with a character. -/
def kindOfFirst (c : Char) : Kind :=
  if c = '#' then .key else if c = 't' ∨ c = 'f' then .boolean else .number

theorem kindOfFirst_of_isDigit {c : Char} (h : c.isDigit = true) : kindOfFirst c = .number := by
  have hne : ∀ d : Char, d.isDigit = false → c ≠ d := by
    rintro d hd rfl
    exact nomatch h.symm.trans hd
  simp [kindOfFirst, hne '#' rfl, hne 't' rfl, hne 'f' rfl]

/-- The first character of the text of a value tells its kind. -/
theorem exists_cons_eq_text (v : Value) :
    ∃ c rest, v.text.toList = c :: rest ∧ kindOfFirst c = v.kind := by
  cases v with
  | number x =>
    cases hfinite : Binary64.isFinite x with
    | true =>
      obtain ⟨c, rest, htext, hc, -⟩ := NumberStyle.plain.exists_cons_eq_finiteText x
      refine ⟨c, rest, (toList_plainNumber_of_isFinite hfinite).trans htext, ?_⟩
      -- A finite number begins with a minus sign or a digit.
      rcases hc with rfl | hdigit
      · rfl
      · exact kindOfFirst_of_isDigit hdigit
    | false =>
      rcases plainNumber_cases hfinite with ⟨htext, -⟩ | ⟨htext, -⟩ | ⟨htext, -⟩
      · exact ⟨'N', _, congrArg String.toList htext, rfl⟩
      · exact ⟨'-', _, congrArg String.toList htext, rfl⟩
      · exact ⟨'i', _, congrArg String.toList htext, rfl⟩
  | bool b =>
    cases b with
    | true => exact ⟨'t', _, rfl, rfl⟩
    | false => exact ⟨'f', _, rfl, rfl⟩
  | key name => exact ⟨'#', name.toList, String.toList_append, rfl⟩

/-- Different values have different texts. -/
theorem text_injective (h : v.text = w.text) : v = w := by
  have hkind : v.kind = w.kind := by
    obtain ⟨c, rest, hv, hc⟩ := v.exists_cons_eq_text
    obtain ⟨d, rest', hw, hd⟩ := w.exists_cons_eq_text
    obtain ⟨rfl, -⟩ := List.cons.inj (hv.symm.trans ((congrArg String.toList h).trans hw))
    exact hc.symm.trans hd
  -- Each kind has different texts for different values.
  match v, w, hkind with
  | .number x, .number y, _ => exact congrArg _ (plainNumber_injective h)
  | .bool true, .bool true, _ => rfl
  | .bool false, .bool false, _ => rfl
  | .bool true, .bool false, _ => exact absurd h (by decide)
  | .bool false, .bool true, _ => exact absurd h (by decide)
  | .key m, .key n, _ => exact congrArg _ ((String.append_right_inj "#").1 h)

end Value

/-! ### JSON -/

namespace Json

/-- Characters that are no quotes, backslashes or control characters stand for themselves. -/
theorem escape_eq_self {c : Char} (hquote : c ≠ '"') (hbackslash : c ≠ '\\')
    (hcontrol : 32 ≤ c.toNat) : escape c = [c] := by
  -- Every other case of `escape` is about one of the characters that are excluded.
  unfold escape
  split
  all_goals first
    | exact absurd rfl hquote
    | exact absurd rfl hbackslash
    | exact absurd hcontrol (by decide)
    | exact if_neg (by omega)

/-- A string without characters that have to be escaped stands between the quotes as it is. -/
theorem toList_string {s : String} (h : ∀ c ∈ s.toList, escape c = [c]) :
    (string s).toList = '"' :: (s.toList ++ ['"']) := by
  have hself : s.toList.flatMap escape = s.toList := by
    generalize s.toList = cs at h
    induction cs with
    | nil => rfl
    | cons c cs ih =>
      obtain ⟨hc, hcs⟩ := List.forall_mem_cons.1 h
      rw [List.flatMap_cons, hc, ih hcs, List.singleton_append]
  rw [string, String.toList_ofList, hself]

end Json

/-- Capital letters and sigils stand for themselves. -/
theorem escape_of_isNameChar {c : Char} (h : isNameChar c = true) : Json.escape c = [c] := by
  rcases isNameChar_iff.1 h with hupper | hsigil
  · -- Capital letters are above the control characters, and are not the quote or the backslash.
    have hrange := isUpper_iff_toNat.1 hupper
    refine Json.escape_eq_self ?_ ?_ (by omega)
    · rintro rfl
      exact absurd hrange (by decide)
    · rintro rfl
      exact absurd hrange (by decide)
  · rcases isSigil_iff.1 hsigil with rfl | rfl
    · rfl
    · rfl

namespace Value

/-- Whether the name of a key consists of capital letters and sigils. -/
def NamedInCapitals (v : Value) : Prop :=
  ∀ name, v = .key name → ∀ c ∈ name.toList, isNameChar c = true

/-- What stands in quotes in the JSON of a value, if anything does. -/
def quoted? : Value → Option String
  | number x => if Binary64.isFinite x then none else some (plainNumber x)
  | bool _ => none
  | key name => some name

theorem quoted?_number_eq_none_iff {x : Float} :
    (number x).quoted? = none ↔ Binary64.isFinite x = true := by
  simp [quoted?]

theorem quoted?_number_eq_some_iff {x : Float} {s : String} :
    (number x).quoted? = some s ↔ Binary64.isFinite x = false ∧ plainNumber x = s := by
  simp [quoted?]

/-- Nothing has to be escaped in the JSON of a value. -/
theorem escape_of_quoted? (h : v.NamedInCapitals) {s : String} (hs : v.quoted? = some s) :
    ∀ c ∈ s.toList, Json.escape c = [c] := by
  cases v with
  | bool b => exact nomatch hs
  | key name =>
    obtain rfl := Option.some.inj hs
    exact fun c hc => escape_of_isNameChar (h name rfl c hc)
  | number x =>
    obtain ⟨hfinite, rfl⟩ := quoted?_number_eq_some_iff.1 hs
    -- There are only three such words.
    have hall : ∀ text ∈ wordsOfNumbers,
        text.toList.all (fun c => Json.escape c == [c]) = true := by decide +kernel
    simpa using hall _ (plainNumber_mem_wordsOfNumbers hfinite)

/-- What stands in quotes in the JSON of a value. -/
theorem toList_content (h : v.NamedInCapitals) {s : String} (hs : v.quoted? = some s) :
    (resultJson.content v).toList = '"' :: (s.toList ++ ['"']) := by
  rw [← Json.toList_string (escape_of_quoted? h hs)]
  cases v with
  | bool b => exact nomatch hs
  | key name => exact congrArg (fun s => (Json.string s).toList) (Option.some.inj hs)
  | number x =>
    obtain ⟨hfinite, rfl⟩ := quoted?_number_eq_some_iff.1 hs
    rw [resultJson.content, if_neg (by simp [hfinite])]

/-- The JSON of a finite number is a numeral. -/
theorem toList_content_number {x : Float} (h : Binary64.isFinite x = true) :
    (resultJson.content (number x)).toList = NumberStyle.json.finiteText x := by
  rw [resultJson.content, if_pos h, jsonNumber, if_pos h, String.toList_ofList]

/-- Without quotes, the first character of the JSON of a value tells its kind. -/
theorem exists_cons_eq_content (h : v.quoted? = none) :
    ∃ c rest, (resultJson.content v).toList = c :: rest ∧ c ≠ '"' ∧ kindOfFirst c = v.kind := by
  cases v with
  | bool b =>
    cases b with
    | true => exact ⟨'t', _, rfl, by decide, rfl⟩
    | false => exact ⟨'f', _, rfl, by decide, rfl⟩
  | key name => exact nomatch h
  | number x =>
    obtain ⟨c, rest, htext, hc, -⟩ := NumberStyle.json.exists_cons_eq_finiteText x
    refine ⟨c, rest, (toList_content_number (quoted?_number_eq_none_iff.1 h)).trans htext, ?_⟩
    -- Neither a minus sign nor a digit is a quote.
    rcases hc with rfl | hdigit
    · exact ⟨by decide, rfl⟩
    · refine ⟨?_, kindOfFirst_of_isDigit hdigit⟩
      rintro rfl
      exact absurd hdigit (by decide)

/-- The text of an infinity or `NaN` is not in capitals. -/
theorem ne_plainNumber {x : Float} (hx : Binary64.isFinite x = false) {name : String}
    (hname : ∀ c ∈ name.toList, isNameChar c = true) : name ≠ plainNumber x := by
  rintro rfl
  -- Each of the words has a small letter in it.
  have hall : ∀ text ∈ wordsOfNumbers, text.toList.all isNameChar = false := by decide +kernel
  exact nomatch (hall _ (plainNumber_mem_wordsOfNumbers hx)).symm.trans (List.all_eq_true.2 hname)

/-- Values with the same JSON string are equal. -/
theorem eq_of_quoted? (hv : v.NamedInCapitals) (hw : w.NamedInCapitals) {s : String}
    (h : v.quoted? = some s) (h' : w.quoted? = some s) : v = w := by
  match v, w with
  | .bool _, _ => exact nomatch h
  | _, .bool _ => exact nomatch h'
  | .number x, .number y =>
    obtain ⟨-, hx⟩ := quoted?_number_eq_some_iff.1 h
    obtain ⟨-, hy⟩ := quoted?_number_eq_some_iff.1 h'
    exact congrArg _ (plainNumber_injective (hx.trans hy.symm))
  -- A key in capitals is not spelled like a number.
  | .number x, .key name =>
    obtain ⟨hfinite, rfl⟩ := quoted?_number_eq_some_iff.1 h
    exact absurd (Option.some.inj h') (ne_plainNumber hfinite (hw name rfl))
  | .key name, .number x =>
    obtain ⟨hfinite, rfl⟩ := quoted?_number_eq_some_iff.1 h'
    exact absurd (Option.some.inj h) (ne_plainNumber hfinite (hv name rfl))
  | .key m, .key n => exact congrArg _ ((Option.some.inj h).trans (Option.some.inj h').symm)

/-- Values without quotes that have the same JSON are equal. -/
theorem eq_of_content (hv : v.quoted? = none) (hw : w.quoted? = none)
    (h : resultJson.content v = resultJson.content w) : v = w := by
  have hkind : v.kind = w.kind := by
    obtain ⟨c, rest, htext, -, hc⟩ := exists_cons_eq_content hv
    obtain ⟨d, rest', htext', -, hd⟩ := exists_cons_eq_content hw
    obtain ⟨rfl, -⟩ := List.cons.inj (htext.symm.trans ((congrArg String.toList h).trans htext'))
    exact hc.symm.trans hd
  match v, w, hkind with
  | .number x, .number y, _ =>
    have hx := quoted?_number_eq_none_iff.1 hv
    have hy := quoted?_number_eq_none_iff.1 hw
    have htext := congrArg String.toList h
    rw [toList_content_number hx, toList_content_number hy] at htext
    exact congrArg _ (NumberStyle.json.finiteText_injective hx hy htext)
  | .bool true, .bool true, _ => rfl
  | .bool false, .bool false, _ => rfl
  | .bool true, .bool false, _ => exact absurd h (by decide)
  | .bool false, .bool true, _ => exact absurd h (by decide)
  | .key m, .key n, _ => exact nomatch hv

/-- Values whose keys are named in capitals have different JSON if they are different. -/
theorem resultJson_injective (hv : v.NamedInCapitals) (hw : w.NamedInCapitals)
    (h : v.resultJson = w.resultJson) : v = w := by
  -- Both objects have the one member `result`, so they differ in its content only.
  have hcontent : resultJson.content v = resultJson.content w := by
    simp only [resultJson, Json.object, List.map_cons, List.map_nil,
      String.intercalate_singleton] at h
    exact (String.append_right_inj _).1 ((String.append_right_inj _).1
      ((String.append_left_inj _).1 h))
  -- Either both contents stand in quotes, or neither does.
  have hquote : ∀ {v w : Value}, v.NamedInCapitals → resultJson.content v = resultJson.content w →
      ∀ s, v.quoted? = some s → w.quoted? ≠ none := by
    intro v w hv h s hs hnone
    obtain ⟨c, rest, htext, hc, -⟩ := exists_cons_eq_content hnone
    rw [← h, toList_content hv hs] at htext
    exact hc (List.cons.inj htext).1.symm
  cases hs : v.quoted? with
  | none =>
    cases ht : w.quoted? with
    | none => exact eq_of_content hs ht hcontent
    | some t => exact absurd hs (hquote hw hcontent.symm t ht)
  | some s =>
    cases ht : w.quoted? with
    | none => exact absurd ht (hquote hv hcontent s hs)
    | some t =>
      have htext := congrArg String.toList hcontent
      rw [toList_content hv hs, toList_content hw ht] at htext
      obtain ⟨-, hrest⟩ := List.cons.inj htext
      -- Between the same quotes stands the same text.
      obtain rfl : s = t := String.toList_inj.1 (List.append_cancel_right hrest)
      exact eq_of_quoted? hv hw hs ht

end Value

/-! ### Results -/

/-- Without keys in the environment, the keys that come of a calculation are named in capitals. -/
theorem namedInCapitals_of_calculate {strictness : Strictness} {tracing : Bool} {text : String}
    {env : Environment} (hfree : env.bindings.KeyFree)
    (h : (calculate strictness tracing text env).result = .ok v) : v.NamedInCapitals := by
  rintro name rfl
  -- The key is a token of the text, and the scanner builds names of these characters only.
  obtain ⟨tokens, hscan, hkey⟩ := key_mem_of_calculate hfree h
  exact (Token.writable_of_mem_scanFrom hscan _ hkey nofun).1

/-- Two results of calculations in environments without keys are equal if their texts are, and also
if their JSON is. A double is given by its bits here, except that there is one `NaN`. The JSON
string of a key is none of those that stand for infinities and `NaN`. -/
theorem calculate_text_injective {strictness₁ strictness₂ : Strictness} {tracing₁ tracing₂ : Bool}
    {text₁ text₂ : String} {env₁ env₂ : Environment} (hfree₁ : env₁.bindings.KeyFree)
    (hfree₂ : env₂.bindings.KeyFree)
    (hv : (calculate strictness₁ tracing₁ text₁ env₁).result = .ok v)
    (hw : (calculate strictness₂ tracing₂ text₂ env₂).result = .ok w) :
    (v.text = w.text → v = w) ∧ (v.resultJson = w.resultJson → v = w) ∧
      ∀ name x, v = .key name → Binary64.isFinite x = false →
        Json.string name ≠ Json.string (plainNumber x) := by
  have hcapitals := namedInCapitals_of_calculate hfree₁ hv
  refine ⟨Value.text_injective,
    Value.resultJson_injective hcapitals (namedInCapitals_of_calculate hfree₂ hw), ?_⟩
  rintro name x rfl hx heq
  -- The JSON of the number would be that of the key.
  have hnumber : (Value.number x).NamedInCapitals := nofun
  have hjson : (Value.key name).resultJson = (Value.number x).resultJson := by
    have hcontent : Value.resultJson.content (.number x) = Json.string (plainNumber x) :=
      if_neg (by simp [hx])
    rw [Value.resultJson, Value.resultJson, hcontent, ← heq]
    rfl
  exact nomatch Value.resultJson_injective hcapitals hnumber hjson

/-- A key that is named like an infinity, and the infinity. -/
theorem calculate_text_injective_infinity :
    (calculate .strict false "IF(1 < 2, #INF, 0)" .standard).result = .ok (.key "INF") ∧
      (calculate .lenient false "1 / 0" .standard).result = .ok (.number (1 / 0)) ∧
      (Value.key "INF").text ≠ (Value.number (1 / 0)).text ∧
      (Value.key "INF").resultJson ≠ (Value.number (1 / 0)).resultJson ∧
      Json.string "INF" ≠ Json.string (plainNumber (1 / 0)) := by
  have hkey : (calculate .strict false "IF(1 < 2, #INF, 0)" .standard).result =
      .ok (.key "INF") := by decide +kernel
  have hnumber : (calculate .lenient false "1 / 0" .standard).result = .ok (.number (1 / 0)) := by
    decide +kernel
  have hfree : Environment.standard.bindings.KeyFree :=
    (Bindings.keyFree_empty.insert "PI" rfl).insert "E" rfl
  obtain ⟨htext, hjson, hstring⟩ := calculate_text_injective hfree hfree hkey hnumber
  exact ⟨hkey, hnumber, fun h => (nomatch htext h), fun h => (nomatch hjson h),
    hstring "INF" (1 / 0) rfl (by decide +kernel)⟩

end Calculator
