import Calculator.Proofs.NumberText
import Calculator.Proofs.ScanRun

/-!
# Scanning what is printed

Tokens are printed with a space between them. A space is in no lexeme, so each token is read back by
itself, and all there is to show is that the text of a token is one lexeme of its kind. That holds
of every token that can come out of the scanner, except for numbers that are too large: those are
infinite and printed as `inf`.

## Key results

- `scanFrom_text`: the text of a token is read as that token
- `scanFrom_line`: and so is a line of tokens
- `writable_of_mem_scanFrom`: what comes out of the scanner can be written
- `scan_line_of_scan`: tokens of a text can be scanned again
-/

namespace Calculator.Token

/-- Whether the text of a token is read as a token. Numbers have to be finite, without a sign, and
names have to consist of letters and sigils. The name of a function begins with a letter. -/
def Writable : Token → Prop
  | number x => Binary64.isFinite x = true ∧ Binary64.isNegative x = false
  | operator _ | punct _ => True
  | function name =>
    (∀ c ∈ name.toList, isNameChar c = true) ∧ name ≠ "" ∧
      ∀ c ∈ name.toList.head?, isSigil c = false
  | reference name | key name => ∀ c ∈ name.toList, isNameChar c = true

instance : DecidablePred Writable
  | number _ => inferInstanceAs (Decidable (_ ∧ _))
  | operator _ | punct _ => .isTrue trivial
  | function name =>
    decidable_of_iff (name.toList.all isNameChar = true ∧ name ≠ "" ∧
      name.toList.head?.all (!isSigil ·) = true) (by simp [Writable, Option.all_eq_true])
  | reference name | key name =>
    decidable_of_iff (name.toList.all isNameChar = true) (by simp [Writable])

/-- Whether there is a sigil in the name that a token holds. -/
def hasSigil : Token → Bool
  | function name | reference name | key name => name.toList.any isSigil
  | _ => false

/-- A name has no sigils exactly if it consists of letters. -/
theorem any_isSigil_eq_false_iff {name : List Char} (hname : ∀ c ∈ name, isNameChar c = true) :
    name.any isSigil = false ↔ ∀ c ∈ name, c.isUpper = true := by
  have hkind : ∀ c ∈ name, (¬ isSigil c = true ↔ c.isUpper = true) := fun c hc => by
    rw [isUpper_eq_not_isSigil (hname c hc), Bool.not_eq_true, Bool.not_eq_true']
  rw [List.any_eq_false]
  exact forall₂_congr hkind

/-- A name run that does not begin with a sigil is the name of a function. -/
theorem ofNameRun_of_not_isSigil {c : Char} (h : isSigil c = false) (run : List Char) :
    ofNameRun c run = function (String.ofList (c :: run)) := by
  have hnot : ¬ (c = '$' ∨ c = '#') := fun hc => Bool.false_ne_true (h.symm.trans (isSigil_iff.2 hc))
  obtain ⟨hreference, hkey⟩ := not_or.1 hnot
  rw [ofNameRun, if_neg hreference, if_neg hkey]

/-- A name run is a reference, a key or, if it does not begin with a sigil, the name of a
function. -/
theorem ofNameRun_cases (c : Char) (run : List Char) :
    ofNameRun c run = reference (String.ofList run) ∨ ofNameRun c run = key (String.ofList run) ∨
      isSigil c = false ∧ ofNameRun c run = function (String.ofList (c :: run)) := by
  cases hsigil : isSigil c with
  | false => exact .inr (.inr ⟨rfl, ofNameRun_of_not_isSigil hsigil run⟩)
  | true =>
    rcases isSigil_iff.1 hsigil with rfl | rfl
    · exact .inl rfl
    · exact .inr (.inl rfl)

/-! ### Writing tokens -/

section

variable {strict : Bool} (position : Nat)

/-- The text of a token that can be written is read as that token, up to a character that belongs
to no run. -/
theorem scanFrom_text {t : Token} {rest : List Char} (h : t.Writable)
    (hstrict : strict = true → t.hasSigil = false)
    (hrest : ∀ c ∈ rest.head?, Numeral.isRunChar c = false ∧ isNameChar c = false) :
    scanFrom strict position (t.text.toList ++ rest) =
      (t :: ·) <$> scanFrom strict (position + t.text.toList.length) rest := by
  have hrun : ∀ c ∈ rest.head?, Numeral.isRunChar c = false := fun c hc => (hrest c hc).1
  have hname : ∀ c ∈ rest.head?, isNameChar c = false := fun c hc => (hrest c hc).2
  have hposition : ∀ (c : Char) (run : List Char),
      position + 1 + run.length = position + (c :: run).length := fun c run => by
    rw [List.length_cons, Nat.add_right_comm, Nat.add_assoc]
  cases t with
  | number x =>
    obtain ⟨hfinite, hsign⟩ := h
    have hformed := Decimal.wellFormed_numeral (.shortest .up (Binary64.magnitude x))
    -- The text is a run that begins with a digit, and its numeral is that of the number.
    obtain ⟨c, run, htext, hc, hdigits⟩ := Numeral.exists_cons_eq_text hformed
    have hvalue : (Numeral.ofRun (c :: run)).value = x := by
      rw [← htext, Numeral.ofRun_text hformed, value_shortest hfinite hsign]
    rw [text, toList_plainNumber hfinite hsign, htext, List.cons_append,
      scanFrom_number strict position hc hdigits hrun, hvalue, hposition]
  | operator op =>
    -- A symbol is read by itself, whatever stands behind it.
    have hsymbol : ofSymbol? op.symbol = some (operator op) :=
      ofSymbol?_eq_some_iff.2 (.inl ⟨op, rfl, rfl⟩)
    rw [text, String.toList_singleton]
    exact scanFrom_symbol strict position rest hsymbol
  | punct mark =>
    have hsymbol : ofSymbol? mark.symbol = some (punct mark) :=
      ofSymbol?_eq_some_iff.2 (.inr ⟨mark, rfl, rfl⟩)
    rw [text, String.toList_singleton]
    exact scanFrom_symbol strict position rest hsymbol
  | function name =>
    obtain ⟨hchars, hne, hfirst⟩ := h
    have hupper := fun hs => (any_isSigil_eq_false_iff hchars).1 (hstrict hs)
    -- The name of a function is a name run as it is; the other names are written behind their
    -- sigils.
    cases hcs : name.toList with
    | nil => exact absurd (String.toList_injective hcs) hne
    | cons c run =>
      rw [hcs] at hchars hupper hfirst
      obtain ⟨hc, hrest⟩ := List.forall_mem_cons.1 hchars
      have htoken : ofNameRun c run = function name := by
        rw [ofNameRun_of_not_isSigil (hfirst c rfl), ← hcs, String.ofList_toList]
      rw [text, hcs, List.cons_append, scanFrom_name strict position hc hrest hname fun hs =>
        (List.forall_mem_cons.1 (hupper hs)).2, htoken, hposition]
  | reference name =>
    have htext : (text (reference name)).toList = '$' :: name.toList := String.toList_append
    have htoken : ofNameRun '$' name.toList = reference name := by
      rw [ofNameRun, if_pos rfl, String.ofList_toList]
    rw [htext, List.cons_append, scanFrom_name strict position rfl h hname fun hs =>
      (any_isSigil_eq_false_iff h).1 (hstrict hs), htoken, hposition]
  | key name =>
    have htext : (text (key name)).toList = '#' :: name.toList := String.toList_append
    have htoken : ofNameRun '#' name.toList = key name := by
      rw [ofNameRun, if_neg (by decide), if_pos rfl, String.ofList_toList]
    rw [htext, List.cons_append, scanFrom_name strict position rfl h hname fun hs =>
      (any_isSigil_eq_false_iff h).1 (hstrict hs), htoken, hposition]

/-- A line is a token and, unless that is all, a space and the line of the others. -/
theorem toList_line_cons (t : Token) (ts : List Token) :
    (line (t :: ts)).toList = t.text.toList ++ if ts = [] then [] else ' ' :: (line ts).toList := by
  cases ts with
  | nil => simp [line]
  | cons u ts => simp [line]

/-- A line of tokens that can be written is read as these tokens. -/
theorem scanFrom_line {ts : List Token} (h : ∀ t ∈ ts, t.Writable)
    (hstrict : strict = true → ∀ t ∈ ts, t.hasSigil = false) :
    scanFrom strict position (line ts).toList = .ok ts := by
  induction ts generalizing position with
  | nil => exact scanFrom_nil strict position
  | cons t ts ih =>
    obtain ⟨ht, hts⟩ := List.forall_mem_cons.1 h
    have hrest := fun position => ih position hts fun hs =>
      (List.forall_mem_cons.1 (hstrict hs)).2
    -- The first token is read up to the space behind it, and the line of the others behind the
    -- space.
    rw [toList_line_cons, scanFrom_text position ht fun hs =>
      (List.forall_mem_cons.1 (hstrict hs)).1]
    · split
      · rename_i hnil
        rw [scanFrom_nil, hnil]
        rfl
      · rw [scanFrom_space, hrest]
        rfl
    · -- Behind the token is the end or a space.
      split
      · exact nofun
      · rintro c ⟨⟩
        exact ⟨rfl, rfl⟩

end

/-! ### Scanned tokens -/

/-- The token of a name run can be written. -/
theorem writable_ofNameRun {c : Char} {run : List Char} (hc : isNameChar c = true)
    (hrun : ∀ d ∈ run, isNameChar d = true) : (ofNameRun c run).Writable := by
  have hchars : ∀ d ∈ (String.ofList run).toList, isNameChar d = true := by
    rwa [String.toList_ofList]
  rcases ofNameRun_cases c run with h | h | ⟨hsigil, h⟩
  · rw [h]
    exact hchars
  · rw [h]
    exact hchars
  · -- Only the name of a function takes its first character along.
    rw [h, Writable, String.toList_ofList]
    refine ⟨List.forall_mem_cons.2 ⟨hc, hrun⟩, fun hnil => ?_, fun d hd => ?_⟩
    · have hlist := congrArg String.toList hnil
      rw [String.toList_ofList] at hlist
      exact nomatch hlist
    · exact Option.some.inj hd ▸ hsigil

/-- If all but the first character of a name run are letters, the name has no sigil. -/
theorem hasSigil_ofNameRun {c : Char} {run : List Char} (hrun : ∀ d ∈ run, d.isUpper = true) :
    (ofNameRun c run).hasSigil = false := by
  have hletters : run.any isSigil = false :=
    (any_isSigil_eq_false_iff fun d hd => isNameChar_iff.2 (.inl (hrun d hd))).2 hrun
  -- A sigil at the start is not part of the name.
  rcases ofNameRun_cases c run with h | h | ⟨hsigil, h⟩
  · rwa [h, hasSigil, String.toList_ofList]
  · rwa [h, hasSigil, String.toList_ofList]
  · rw [h, hasSigil, String.toList_ofList, List.any_cons, hsigil, hletters]
    rfl

/-- A token in front of what is scanned is the first of all tokens. -/
theorem exists_of_map_eq_ok {t : Token} {ts : List Token} {result : Except ScanError (List Token)}
    (h : (t :: ·) <$> result = .ok ts) : ∃ rest, result = .ok rest ∧ ts = t :: rest := by
  cases result with
  | error e => exact nomatch h
  | ok rest => exact ⟨rest, rfl, (Except.ok.inj h).symm⟩

/-- What holds of the first token and of all that follow holds of all tokens that are scanned. -/
theorem forall_mem_of_map_eq_ok {P : Token → Prop} {t : Token} {ts : List Token}
    {result : Except ScanError (List Token)} (h : (t :: ·) <$> result = .ok ts) (ht : P t)
    (hresult : ∀ rest, result = .ok rest → ∀ u ∈ rest, P u) : ∀ u ∈ ts, P u := by
  obtain ⟨rest, hrest, rfl⟩ := exists_of_map_eq_ok h
  exact List.forall_mem_cons.2 ⟨ht, hresult rest hrest⟩

/-- What comes out of the scanner can be written, unless it is a number that is too large. With
strict identifiers there are no sigils in names. -/
theorem writable_of_mem_scanFrom {strict : Bool} {position : Nat} {cs : List Char}
    {ts : List Token} (h : scanFrom strict position cs = .ok ts) :
    ∀ t ∈ ts, (∀ x, t = number x → Binary64.isFinite x = true) →
      t.Writable ∧ (strict = true → t.hasSigil = false) := by
  induction cs using lexeme_induct generalizing position ts with
  | nil =>
    rw [scanFrom_nil] at h
    obtain rfl := Except.ok.inj h
    exact nofun
  | space cs ih =>
    rw [scanFrom_space] at h
    exact ih h
  | number c run rest hc hrun hrest ih =>
    rw [scanFrom_number strict position hc hrun hrest] at h
    refine forall_mem_of_map_eq_ok h (fun hfinite => ?_) fun _ => ih
    -- A numeral has no sign, so only its size matters.
    exact ⟨⟨hfinite _ rfl, Numeral.isNegative_value _⟩, fun _ => rfl⟩
  | name c run rest hc hrun hrest ih =>
    by_cases hletters : strict = true → ∀ d ∈ run, d.isUpper = true
    · rw [scanFrom_name strict position hc hrun hrest hletters] at h
      refine forall_mem_of_map_eq_ok h (fun _ => ?_) fun _ => ih
      exact ⟨writable_ofNameRun hc hrun, fun hs => hasSigil_ofNameRun (hletters hs)⟩
    · -- Strict identifiers do not let the run through.
      obtain ⟨sigil, k, herror⟩ := exists_scanFrom_name_error strict hc hrun hletters
      rw [herror] at h
      exact nomatch h
  | symbol c t cs hsymbol ih =>
    rw [scanFrom_symbol strict position cs hsymbol] at h
    refine forall_mem_of_map_eq_ok h (fun _ => ?_) fun _ => ih
    rcases ofSymbol?_eq_some_iff.1 hsymbol with ⟨op, rfl, -⟩ | ⟨mark, rfl, -⟩
    · exact ⟨trivial, fun _ => rfl⟩
    · exact ⟨trivial, fun _ => rfl⟩
  | other c cs hspace hdigit hname hsymbol =>
    rw [scanFrom_other strict position cs hspace hdigit hname hsymbol] at h
    exact nomatch h

/-- Tokens of a text can be written on a line and scanned again, as strictly as the text. -/
theorem scan_line_of_scan {s s' : Strictness} {text : String} {tokens ts : List Token}
    (hstrict : s'.identifiers = true → s.identifiers = true)
    (hscan : scan s text = .ok tokens)
    (hfinite : ∀ x, number x ∈ tokens → Binary64.isFinite x = true)
    (hts : ∀ t ∈ ts, t ∈ tokens) : scan s' (line ts) = .ok ts := by
  have hwritable : ∀ t ∈ ts, t.Writable ∧ (s.identifiers = true → t.hasSigil = false) :=
    fun t ht => writable_of_mem_scanFrom hscan t (hts t ht) fun x hx =>
      hfinite x (hx ▸ hts t ht)
  exact scanFrom_line 0 (fun t ht => (hwritable t ht).1) fun hs t ht =>
    (hwritable t ht).2 (hstrict hs)

end Calculator.Token
