import Calculator.Proofs.ScanRun

/-!
# Which texts can be scanned

Whether a character may stand where it does depends on the character before it and on nothing else:
it has to be in the alphabet, a point may not begin a run of digits and points, and with strict
identifiers a sigil may not follow a character of a name. A text can be scanned if no character
offends against this, and otherwise the first that does is reported.

The scanner does not look at neighbours but reads whole lexemes. Between two lexemes the characters
on both sides do not belong to one run (`Boundary`), and this is what the induction carries along.

## Key results

- `verdict_scanFrom`: what scanning the rest of a text says about its characters
- `scan_ok_iff`, `scan_error_iff`: acceptance, and the place of the error
- `clean_none_iff`: the condition on neighbours as one on the characters and runs of a text
- `utf8ByteSize_of_clean`: up to an error, offsets in characters are offsets in bytes
- `scan_verdict`: all of it about whole texts
-/

namespace Calculator.Token

/-- The characters that may stand in an expression. -/
def isAllowed (c : Char) : Bool :=
  c.isDigit || c.isUpper || ['.', '+', '-', '*', '/', '^', '<', '>', '=', '(', ')', ',', '$', '#',
    ' '].contains c

/-- Whether a character may not stand behind another one, or at the start of a text. -/
inductive Offends (strict : Bool) (previous : Option Char) : Char → Prop
  /-- The character may not stand anywhere. -/
  | foreign {c : Char} (h : isAllowed c = false) : Offends strict previous c
  /-- A run of digits and points begins with a point. -/
  | leadingPoint (h : ∀ p ∈ previous, Numeral.isRunChar p = false) : Offends strict previous '.'
  /-- With strict identifiers, a sigil follows a letter or sigil. -/
  | innerSigil {p c : Char} (hstrict : strict = true) (hprevious : previous = some p)
    (hp : isNameChar p = true) (hc : isSigil c = true) : Offends strict previous c

/-- Whether no character of a text offends, where `previous` stands before it. -/
def Clean (strict : Bool) : Option Char → List Char → Prop
  | _, [] => True
  | previous, c :: cs => ¬ Offends strict previous c ∧ Clean strict (some c) cs

/-- The last character of a text that `previous` stands before. -/
def lastOr : Option Char → List Char → Option Char
  | previous, [] => previous
  | _, c :: cs => lastOr (some c) cs

/-- `run` is a longest run of digits and points in `before ++ run ++ after`. -/
structure NumberRun (before run after : List Char) : Prop where
  ne_nil : run ≠ []
  isRunChar : ∀ c ∈ run, Numeral.isRunChar c = true
  left : ∀ c ∈ before.getLast?, Numeral.isRunChar c = false
  right : ∀ c ∈ after.head?, Numeral.isRunChar c = false

/-! ### Characters -/

/-- The alphabet is what the scanner has a use for. -/
theorem isAllowed_iff {c : Char} :
    isAllowed c = true ↔
      c = ' ' ∨ Numeral.isRunChar c = true ∨ isNameChar c = true ∨ (ofSymbol? c).isSome = true := by
  simp only [isAllowed, isRunChar_iff, isNameChar_iff, isSigil_iff, Bool.or_eq_true,
    List.contains_iff_mem, List.mem_cons, List.not_mem_nil, or_false]
  constructor
  · rintro ((h | h) | h)
    · exact .inr (.inl (.inl h))
    · exact .inr (.inr (.inl (.inl h)))
    · -- Each of the other characters is a point, a sigil, a space or a symbol.
      rcases h with rfl | rfl | rfl | rfl | rfl | rfl | rfl | rfl | rfl | rfl | rfl | rfl | rfl |
        rfl | rfl <;> decide
  · rintro (rfl | (h | rfl) | (h | rfl | rfl) | h)
    · decide
    · exact .inl (.inl h)
    · decide
    · exact .inl (.inr h)
    · decide
    · decide
    · obtain ⟨t, ht⟩ := Option.isSome_iff_exists.1 h
      refine .inr ?_
      rcases ofSymbol?_eq_some_iff.1 ht with ⟨op, -, rfl⟩ | ⟨mark, -, rfl⟩
      · cases op <;> decide
      · cases mark <;> decide

/-- An allowed character is one byte long. -/
theorem utf8Size_of_isAllowed {c : Char} (h : isAllowed c = true) : c.utf8Size = 1 := by
  -- The whole alphabet is in ASCII.
  have hascii : c.toNat ≤ 127 := by
    simp only [isAllowed, Bool.or_eq_true, List.contains_iff_mem, List.mem_cons, List.not_mem_nil,
      or_false] at h
    rcases h with (h | h) | h
    · have := isDigit_iff_toNat.1 h
      omega
    · have := isUpper_iff_toNat.1 h
      omega
    · rcases h with rfl | rfl | rfl | rfl | rfl | rfl | rfl | rfl | rfl | rfl | rfl | rfl | rfl |
        rfl | rfl <;> decide
  exact Char.utf8Size_eq_one_iff.2 (UInt32.le_iff_toNat_le.2 hascii)

/-- A character in the alphabet does not offend unless it is a point or sigil in the wrong place. -/
theorem not_offends {strict : Bool} {previous : Option Char} {c : Char} (h : isAllowed c = true)
    (hpoint : c = '.' → ∃ p ∈ previous, Numeral.isRunChar p = true)
    (hsigil : strict = true → isSigil c = true → ∀ p ∈ previous, isNameChar p = false) :
    ¬ Offends strict previous c := by
  intro hoffends
  cases hoffends with
  | foreign hnot => exact nomatch h.symm.trans hnot
  | leadingPoint hnot =>
    obtain ⟨p, hp, hrun⟩ := hpoint rfl
    exact nomatch hrun.symm.trans (hnot p hp)
  | innerSigil hstrict hprevious hp hc =>
    exact nomatch hp.symm.trans (hsigil hstrict hc _ hprevious)

/-- A character that belongs to no run does not offend anywhere. -/
theorem not_offends_of_single {strict : Bool} {previous : Option Char} {c : Char}
    (h : isAllowed c = true) (hrun : Numeral.isRunChar c = false) (hname : isNameChar c = false) :
    ¬ Offends strict previous c := by
  refine not_offends h ?_ fun _ hsigil => ?_
  · rintro rfl
    exact absurd hrun (by decide)
  · exact nomatch (isNameChar_iff.2 (.inr hsigil)).symm.trans hname

/-- A letter does not offend anywhere, and a sigil does not if identifiers are lenient or it is not
behind a letter or sigil. -/
theorem not_offends_of_isNameChar {strict : Bool} {previous : Option Char} {c : Char}
    (h : isNameChar c = true)
    (hstrict : strict = true → c.isUpper = true ∨ ∀ p ∈ previous, isNameChar p = false) :
    ¬ Offends strict previous c := by
  refine not_offends (isAllowed_iff.2 (.inr (.inr (.inl h)))) ?_ fun hs hsigil => ?_
  · rintro rfl
    exact absurd h (by decide)
  · -- A letter is no sigil, so only the second case is left.
    refine (hstrict hs).resolve_left fun hupper => ?_
    rw [isUpper_eq_not_isSigil h, hsigil] at hupper
    exact nomatch hupper

/-- A digit does not offend anywhere, and a point does not offend behind a digit or point. -/
theorem not_offends_of_isRunChar {strict : Bool} {previous : Option Char} {c : Char}
    (h : Numeral.isRunChar c = true)
    (hprevious : c.isDigit = true ∨ ∃ p ∈ previous, Numeral.isRunChar p = true) :
    ¬ Offends strict previous c := by
  refine not_offends (isAllowed_iff.2 (.inr (.inl h))) ?_ fun _ hsigil => ?_
  · rintro rfl
    exact hprevious.resolve_left (by decide)
  · have hname := isNameChar_iff.2 (.inr hsigil)
    exact nomatch hname.symm.trans (isNameChar_eq_false_of_isRunChar h)

/-! ### Texts in pieces -/

section

variable {strict : Bool} {previous : Option Char}

/-- A text is clean if its two parts are, the second one behind the first. -/
theorem clean_append {xs ys : List Char} :
    Clean strict previous (xs ++ ys) ↔
      Clean strict previous xs ∧ Clean strict (lastOr previous xs) ys := by
  induction xs generalizing previous with
  | nil => simp [Clean, lastOr]
  | cons x xs ih => simp [Clean, lastOr, ih, and_assoc]

theorem lastOr_append (xs ys : List Char) :
    lastOr previous (xs ++ ys) = lastOr (lastOr previous xs) ys := by
  induction xs generalizing previous with
  | nil => rfl
  | cons x xs ih => exact ih

/-- Without characters, the last one is the one that stands before. -/
theorem lastOr_eq (cs : List Char) : lastOr previous cs = cs.getLast?.or previous := by
  induction cs generalizing previous with
  | nil => rfl
  | cons c cs ih =>
    rw [lastOr, ih, List.getLast?_cons]
    cases cs.getLast? <;> rfl

theorem lastOr_none (cs : List Char) : lastOr none cs = cs.getLast? := by
  rw [lastOr_eq, Option.or_none]

/-- What holds of all characters up to the end of a text holds of the last one. -/
theorem exists_lastOr {P : Char → Prop} {c : Char} {cs : List Char} (hc : P c)
    (hcs : ∀ d ∈ cs, P d) : ∃ p, lastOr (some c) cs = some p ∧ P p := by
  induction cs generalizing c with
  | nil => exact ⟨c, rfl, hc⟩
  | cons d cs ih =>
    obtain ⟨hd, hcs⟩ := List.forall_mem_cons.1 hcs
    exact ih hd hcs

/-- A run of characters is clean if none of them offends behind another one of its kind. -/
theorem clean_of_forall {P : Char → Prop} {c : Char} {cs : List Char} (hc : P c)
    (hcs : ∀ d ∈ cs, P d) (hstep : ∀ p, P p → ∀ d ∈ cs, ¬ Offends strict (some p) d) :
    Clean strict (some c) cs := by
  induction cs generalizing c with
  | nil => trivial
  | cons d cs ih =>
    obtain ⟨hd, hcs⟩ := List.forall_mem_cons.1 hcs
    exact ⟨hstep c hc d List.mem_cons_self,
      ih hd hcs fun p hp e he => hstep p hp e (List.mem_cons_of_mem d he)⟩

/-- A text is clean if no character offends behind those before it. -/
theorem clean_iff {cs : List Char} :
    Clean strict previous cs ↔
      ∀ before c after, cs = before ++ c :: after → ¬ Offends strict (lastOr previous before) c := by
  constructor
  · rintro hclean before c after rfl
    exact (clean_append.1 hclean).2.1
  · induction cs generalizing previous with
    | nil => exact fun _ => trivial
    | cons c cs ih =>
      intro h
      refine ⟨h [] c cs rfl, ih fun before d after hcs => h (c :: before) d after ?_⟩
      rw [hcs, List.cons_append]

/-! ### Scanning -/

/-- Whether two characters, the last one of a lexeme and the first one behind it, do not belong to
one run. -/
def Boundary (previous : Option Char) (cs : List Char) : Prop :=
  ∀ c ∈ cs.head?, (Numeral.isRunChar c = true → ∀ p ∈ previous, Numeral.isRunChar p = false) ∧
    (isNameChar c = true → ∀ p ∈ previous, isNameChar p = false)

/-- Behind a character that is in no run anything may begin. -/
theorem boundary_of_not_run {p : Char} (hrun : Numeral.isRunChar p = false)
    (hname : isNameChar p = false) (cs : List Char) : Boundary (some p) cs := by
  intro c _
  refine ⟨fun _ q hq => ?_, fun _ q hq => ?_⟩
  · rwa [← Option.some.inj hq]
  · rwa [← Option.some.inj hq]

/-- What a result of scanning a text says about its characters. -/
def Verdict (strict : Bool) (previous : Option Char) (position : Nat) (cs : List Char) :
    Except ScanError (List Token) → Prop
  | .ok _ => Clean strict previous cs
  | .error (.invalidCharacter c k) =>
    ∃ before after, cs = before ++ c :: after ∧ k = position + before.length ∧
      Clean strict previous before ∧ Offends strict (lastOr previous before) c

/-- Clean characters before a text leave the verdict on it as it is. -/
theorem Verdict.append {position position' : Nat} {xs ys : List Char}
    {result : Except ScanError (List Token)} {f : List Token → List Token}
    (h : Verdict strict (lastOr previous xs) position' ys result)
    (hxs : Clean strict previous xs) (hposition : position' = position + xs.length) :
    Verdict strict previous position (xs ++ ys) (f <$> result) := by
  cases result with
  | ok tokens => exact clean_append.2 ⟨hxs, h⟩
  | error e =>
    obtain ⟨c, k⟩ := e
    obtain ⟨before, after, rfl, rfl, hclean, hoffends⟩ := h
    refine ⟨xs ++ before, after, by simp, by simp; omega, clean_append.2 ⟨hxs, hclean⟩, ?_⟩
    rwa [lastOr_append]

/-- What scanning the rest of a text says about its characters. -/
theorem verdict_scanFrom (position : Nat) (cs : List Char) (hboundary : Boundary previous cs) :
    Verdict strict previous position cs (scanFrom strict position cs) := by
  induction cs using lexeme_induct generalizing position previous with
  | nil =>
    rw [scanFrom_nil]
    trivial
  | space cs ih =>
    have hrest := ih (position + 1) (boundary_of_not_run (p := ' ') rfl rfl cs)
    have hclean : Clean strict previous [' '] := ⟨not_offends_of_single rfl rfl rfl, trivial⟩
    rw [scanFrom_space, ← id_map (scanFrom strict (position + 1) cs)]
    exact hrest.append hclean rfl
  | number c run rest hc hrun hrest ih =>
    have hc' := isRunChar_of_isDigit hc
    -- Behind its first digit, the run is clean because digits and points stand behind each other.
    have hclean : Clean strict previous (c :: run) :=
      ⟨not_offends_of_isRunChar hc' (.inl hc), clean_of_forall hc' hrun fun p hp d hd =>
        not_offends_of_isRunChar (hrun d hd) (.inr ⟨p, rfl, hp⟩)⟩
    -- The last character of the run is a digit or point, and what follows is neither.
    obtain ⟨last, hlast, hkind⟩ := exists_lastOr hc' hrun
    have hbound : Boundary (lastOr previous (c :: run)) rest := by
      intro d hd
      refine ⟨fun hd' => (nomatch hd'.symm.trans (hrest d hd)), fun _ p hp => ?_⟩
      obtain rfl : last = p := Option.some.inj (hlast.symm.trans hp)
      exact isNameChar_eq_false_of_isRunChar hkind
    rw [scanFrom_number strict position hc hrun hrest]
    exact (ih _ hbound).append hclean (by simp; omega)
  | name c run rest hc hrun hrest ih =>
    -- The first character of a name stands behind a boundary, so it may be a sigil.
    have hfirst : ¬ Offends strict previous c :=
      not_offends_of_isNameChar hc fun _ => .inr ((hboundary c rfl).2 hc)
    by_cases hletters : strict = true → ∀ d ∈ run, d.isUpper = true
    · have hclean : Clean strict previous (c :: run) :=
        ⟨hfirst, clean_of_forall hc hrun fun _ _ d hd =>
          not_offends_of_isNameChar (hrun d hd) fun hs => .inl (hletters hs d hd)⟩
      obtain ⟨last, hlast, hkind⟩ := exists_lastOr hc hrun
      have hbound : Boundary (lastOr previous (c :: run)) rest := by
        intro d hd
        refine ⟨fun _ p hp => ?_, fun hd' => nomatch hd'.symm.trans (hrest d hd)⟩
        obtain rfl : last = p := Option.some.inj (hlast.symm.trans hp)
        exact isRunChar_eq_false_of_isNameChar hkind
      rw [scanFrom_name strict position hc hrun hrest hletters]
      exact (ih _ hbound).append hclean (by simp; omega)
    · -- Identifiers are strict, and the name has letters up to a sigil inside it.
      obtain ⟨rfl, hnot⟩ := Classical.not_imp.1 hletters
      obtain ⟨letters, sigil, more, rfl, hupper, hsigil⟩ :=
        exists_sigil_of_not_isUpper hrun hnot
      have hkinds : ∀ d ∈ letters, isNameChar d = true := fun d hd =>
        hrun d (List.mem_append_left _ hd)
      have hclean : Clean true previous (c :: letters) :=
        ⟨hfirst, clean_of_forall hc hkinds fun _ _ d hd =>
          not_offends_of_isNameChar (hkinds d hd) fun _ => .inl (hupper d hd)⟩
      obtain ⟨last, hlast, hkind⟩ := exists_lastOr hc hkinds
      rw [List.append_assoc, List.cons_append, scanFrom_innerSigil position hc hupper hsigil]
      exact ⟨c :: letters, more ++ rest, rfl, by simp; omega, hclean,
        .innerSigil rfl hlast hkind hsigil⟩
  | symbol c t cs hsymbol ih =>
    obtain ⟨-, hrun, hname⟩ := kinds_of_ofSymbol? hsymbol
    have hallowed : isAllowed c = true :=
      isAllowed_iff.2 (.inr (.inr (.inr (by rw [hsymbol]; rfl))))
    have hclean : Clean strict previous [c] :=
      ⟨not_offends_of_single hallowed hrun hname, trivial⟩
    rw [scanFrom_symbol strict position cs hsymbol]
    exact (ih _ (boundary_of_not_run hrun hname cs)).append hclean rfl
  | other c cs hspace hdigit hname hsymbol =>
    rw [scanFrom_other strict position cs hspace hdigit hname hsymbol]
    refine ⟨[], cs, rfl, rfl, trivial, ?_⟩
    -- A point here begins a run; anything else is not in the alphabet at all.
    by_cases hpoint : c = '.'
    · subst hpoint
      exact .leadingPoint ((hboundary '.' rfl).1 rfl)
    · refine .foreign (Bool.eq_false_iff.2 fun hallowed => ?_)
      rcases isAllowed_iff.1 hallowed with h | h | h | h
      · exact hspace h
      · exact (isRunChar_iff.1 h).elim (fun h => nomatch h.symm.trans hdigit) hpoint
      · exact nomatch h.symm.trans hname
      · rw [hsymbol] at h
        exact nomatch h

/-- A text that begins with an offending character behind clean ones begins with it behind no more
than those that are clean in front of another one. -/
theorem length_le_of_offends {before before' after after' : List Char} {c c' : Char}
    (h : before ++ c :: after = before' ++ c' :: after') (hclean : Clean strict previous before')
    (hoffends : Offends strict (lastOr previous before) c) : before'.length ≤ before.length := by
  -- If the clean part were longer, the offending character would lie in it.
  rcases List.append_eq_append_iff.1 h with ⟨between, rfl, hrest⟩ | ⟨between, rfl, -⟩
  · cases between with
    | nil => simp
    | cons d between =>
      obtain ⟨rfl, -⟩ := List.cons.inj hrest
      exact absurd hoffends (clean_append.1 hclean).2.1
  · simp

end

/-! ### Whole texts -/

section

variable {strictness : Strictness} {text : String}

/-- Nothing stands before a text, so its start is a boundary. -/
theorem verdict_scan (strictness : Strictness) (text : String) :
    Verdict strictness.identifiers none 0 text.toList (scan strictness text) :=
  verdict_scanFrom 0 text.toList fun _ _ => ⟨fun _ _ => nofun, fun _ _ => nofun⟩

/-- A text can be scanned exactly if none of its characters offends. -/
theorem scan_ok_iff :
    (∃ tokens, scan strictness text = .ok tokens) ↔
      Clean strictness.identifiers none text.toList := by
  have hverdict := verdict_scan strictness text
  constructor
  · rintro ⟨tokens, htokens⟩
    rwa [htokens] at hverdict
  · intro hclean
    cases hresult : scan strictness text with
    | ok tokens => exact ⟨tokens, rfl⟩
    | error e =>
      rw [hresult] at hverdict
      obtain ⟨before, after, htext, -, -, hoffends⟩ := hverdict
      exact absurd hoffends (clean_iff.1 hclean before _ after htext)

/-- What is reported is the first character that offends, and where it stands. -/
theorem scan_error_iff {c : Char} {position : Nat} :
    scan strictness text = .error (.invalidCharacter c position) ↔
      ∃ before after, text.toList = before ++ c :: after ∧ position = before.length ∧
        Clean strictness.identifiers none before ∧
        Offends strictness.identifiers before.getLast? c := by
  have hverdict := verdict_scan strictness text
  constructor
  · intro herror
    rw [herror] at hverdict
    obtain ⟨before, after, htext, rfl, hclean, hoffends⟩ := hverdict
    rw [lastOr_none] at hoffends
    exact ⟨before, after, htext, Nat.zero_add _, hclean, hoffends⟩
  · rintro ⟨before, after, htext, rfl, hclean, hoffends⟩
    rw [← lastOr_none] at hoffends
    rw [htext] at hverdict
    cases hresult : scan strictness text with
    | ok tokens =>
      rw [hresult] at hverdict
      exact absurd hoffends (clean_append.1 hverdict).2.1
    | error e =>
      obtain ⟨c', position'⟩ := e
      rw [hresult] at hverdict
      obtain ⟨before', after', htext', rfl, hclean', hoffends'⟩ := hverdict
      -- Both places are those of a first offence, so they are the same.
      have hlength : before.length = before'.length :=
        Nat.le_antisymm (length_le_of_offends htext'.symm hclean hoffends')
          (length_le_of_offends htext' hclean' hoffends)
      obtain ⟨rfl, hrest⟩ := List.append_inj htext' hlength
      obtain ⟨rfl, -⟩ := List.cons.inj hrest
      rw [Nat.zero_add]

/-- That no character offends is a condition on the characters of a text, its runs of digits and
points and, with strict identifiers, its sigils. -/
theorem clean_none_iff {strict : Bool} {cs : List Char} :
    Clean strict none cs ↔
      (∀ c ∈ cs, isAllowed c = true) ∧
      (∀ before run after, cs = before ++ run ++ after → NumberRun before run after →
        ∀ c ∈ run.head?, c.isDigit = true) ∧
      (strict = true → ∀ before p c after, cs = before ++ p :: c :: after →
        isSigil c = true → isNameChar p = false) := by
  simp only [clean_iff, lastOr_none]
  constructor
  · intro h
    refine ⟨fun c hc => ?_, fun before run after hcs hrun c hc => ?_,
      fun hstrict before p c after hcs hc => ?_⟩
    · -- A foreign character offends wherever it stands.
      obtain ⟨before, after, hcs⟩ := List.append_of_mem hc
      exact Bool.not_eq_false _ ▸ fun hnot => h before c after hcs (.foreign hnot)
    · cases run with
      | nil => exact nomatch hc
      | cons d run =>
        obtain rfl : d = c := Option.some.inj hc
        refine (isRunChar_iff.1 (hrun.isRunChar d List.mem_cons_self)).resolve_right ?_
        rintro rfl
        exact h before '.' (run ++ after) (by simpa using hcs) (.leadingPoint hrun.left)
    · refine Bool.eq_false_iff.2 fun hp => h (before ++ [p]) c after (by simpa using hcs) ?_
      exact .innerSigil hstrict List.getLast?_concat hp hc
  · -- Each of the three conditions rules out one way to offend.
    rintro ⟨hallowed, hruns, hsigils⟩ before c after rfl hoffends
    cases hoffends with
    | foreign hnot => exact nomatch (hallowed c (by simp)).symm.trans hnot
    | leadingPoint hleft =>
      -- The longest run from this point on begins with the point.
      obtain ⟨run, behind, rfl, hrun, hright⟩ := List.exists_span Numeral.isRunChar after
      have hmax : NumberRun before ('.' :: run) behind :=
        ⟨nofun, List.forall_mem_cons.2 ⟨rfl, hrun⟩, hleft, hright⟩
      exact absurd (hruns before _ behind (by simp) hmax '.' rfl) (by decide)
    | @innerSigil p _ hstrict hprevious hp hc =>
      obtain ⟨start, rfl⟩ := List.getLast?_eq_some_iff.1 hprevious
      have hnot := hsigils hstrict start p c after (by simp) hc
      exact nomatch hp.symm.trans hnot

/-- Clean characters are one byte long each. -/
theorem utf8ByteSize_of_clean {strict : Bool} {previous : Option Char} {cs : List Char}
    (h : Clean strict previous cs) : (String.ofList cs).utf8ByteSize = cs.length := by
  induction cs generalizing previous with
  | nil => rfl
  | cons c cs ih =>
    obtain ⟨hoffends, hcs⟩ := h
    have hallowed : isAllowed c = true :=
      Bool.not_eq_false _ ▸ fun hnot => hoffends (.foreign hnot)
    rw [← List.singleton_append, String.ofList_append, String.utf8ByteSize_append, ih hcs,
      ← String.singleton_eq_ofList, String.utf8ByteSize_singleton, utf8Size_of_isAllowed hallowed,
      List.singleton_append, List.length_cons, Nat.add_comm]

/-- A text can be scanned exactly if all its characters are in the alphabet, its runs of digits and
points begin with digits and, with strict identifiers, no sigil follows a letter or sigil. Of any
other text the first character that offends is reported, with the number of characters, which is
also the number of bytes, in front of it. -/
theorem scan_verdict (strictness : Strictness) (text : String) :
    ((∃ tokens, scan strictness text = .ok tokens) ↔
      (∀ c ∈ text.toList, isAllowed c = true) ∧
      (∀ before run after, text.toList = before ++ run ++ after → NumberRun before run after →
        ∀ c ∈ run.head?, c.isDigit = true) ∧
      (strictness.identifiers = true → ∀ before p c after,
        text.toList = before ++ p :: c :: after → isSigil c = true → isNameChar p = false)) ∧
    ∀ c position, scan strictness text = .error (.invalidCharacter c position) ↔
      ∃ before after : String, text = before ++ String.singleton c ++ after ∧
        position = before.length ∧ position = before.utf8ByteSize ∧
        Offends strictness.identifiers before.toList.getLast? c ∧
        ∀ start d rest, before.toList = start ++ d :: rest →
          ¬ Offends strictness.identifiers start.getLast? d := by
  refine ⟨scan_ok_iff.trans clean_none_iff, fun c position => scan_error_iff.trans ⟨?_, ?_⟩⟩
  · rintro ⟨before, after, htext, rfl, hclean, hoffends⟩
    refine ⟨String.ofList before, String.ofList after, ?_, by simp,
      (utf8ByteSize_of_clean hclean).symm, by simpa using hoffends, ?_⟩
    · rw [← String.toList_inj, htext]
      simp
    · simpa only [String.toList_ofList, clean_iff, lastOr_none] using hclean
  · rintro ⟨before, after, rfl, rfl, -, hoffends, hclean⟩
    refine ⟨before.toList, after.toList, by simp, String.length_toList.symm, ?_, hoffends⟩
    simpa only [clean_iff, lastOr_none] using hclean

end

end Calculator.Token
