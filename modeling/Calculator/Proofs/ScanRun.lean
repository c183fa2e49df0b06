import Calculator.Proofs.NumeralRun
import Calculator.Token.Scan

/-!
# What the scanner does with one lexeme

A text falls into lexemes: spaces, runs of digits and points that begin with a digit, runs of
letters and sigils, symbols, and characters that may not stand where they do. There is one lemma
about `Token.scanFrom` for each of them, and an induction over the lexemes of a text. The proofs
about scanning use these and do not unfold `scanFrom` themselves.

## Key results

- `scanFrom_space`, `scanFrom_number`, `scanFrom_name`, `scanFrom_symbol`: accepted lexemes
- `scanFrom_innerSigil`, `exists_scanFrom_name_error`, `scanFrom_other`: rejected ones
- `ofSymbol?_eq_some_iff`: the symbols are those of the operators and punctuation marks
- `lexeme_induct`: induction over a text, lexeme by lexeme
-/

namespace Calculator

/-! ### Kinds of characters -/

theorem isDigit_iff_toNat {c : Char} : c.isDigit = true ↔ 48 ≤ c.toNat ∧ c.toNat ≤ 57 := by
  simp only [Char.isDigit, Bool.and_eq_true, decide_eq_true_eq, ge_iff_le, UInt32.le_iff_toNat_le]
  rfl

theorem isUpper_iff_toNat {c : Char} : c.isUpper = true ↔ 65 ≤ c.toNat ∧ c.toNat ≤ 90 := by
  rw [← decide_eq_true_iff (p := 65 ≤ c.toNat ∧ c.toNat ≤ 90)]
  rfl

theorem isSigil_iff {c : Char} : isSigil c = true ↔ c = '$' ∨ c = '#' := by
  simp [isSigil]

theorem isNameChar_iff {c : Char} : isNameChar c = true ↔ c.isUpper = true ∨ isSigil c = true := by
  simp [isNameChar]

theorem isRunChar_iff {c : Char} :
    Numeral.isRunChar c = true ↔ c.isDigit = true ∨ c = '.' := by
  simp [Numeral.isRunChar]

/-- A character of a name is no sigil exactly if it is a letter. -/
theorem isUpper_eq_not_isSigil {c : Char} (h : isNameChar c = true) :
    c.isUpper = !isSigil c := by
  -- A letter lies in a range that holds neither sigil.
  rcases isNameChar_iff.1 h with hupper | hsigil
  · have hrange := isUpper_iff_toNat.1 hupper
    have hnot : isSigil c = false := Bool.eq_false_iff.2 fun hsigil => by
      rcases isSigil_iff.1 hsigil with rfl | rfl
      · exact absurd hrange (by decide)
      · exact absurd hrange (by decide)
    rw [hupper, hnot]
    rfl
  · rcases isSigil_iff.1 hsigil with rfl | rfl
    · rfl
    · rfl

/-- Characters of names are neither digits nor points. -/
theorem isRunChar_eq_false_of_isNameChar {c : Char} (h : isNameChar c = true) :
    Numeral.isRunChar c = false := by
  rcases isNameChar_iff.1 h with hupper | hsigil
  · have hrange := isUpper_iff_toNat.1 hupper
    refine Bool.eq_false_iff.2 fun hrun => ?_
    rcases isRunChar_iff.1 hrun with hdigit | rfl
    · have := isDigit_iff_toNat.1 hdigit
      omega
    · exact absurd hrange (by decide)
  · rcases isSigil_iff.1 hsigil with rfl | rfl
    · rfl
    · rfl

theorem isNameChar_eq_false_of_isRunChar {c : Char} (h : Numeral.isRunChar c = true) :
    isNameChar c = false :=
  Bool.eq_false_iff.2 fun hname =>
    nomatch h.symm.trans (isRunChar_eq_false_of_isNameChar hname)

theorem isRunChar_of_isDigit {c : Char} (h : c.isDigit = true) : Numeral.isRunChar c = true :=
  isRunChar_iff.2 (.inl h)

theorem isDigit_eq_false_of_isNameChar {c : Char} (h : isNameChar c = true) :
    c.isDigit = false :=
  Bool.eq_false_iff.2 fun hdigit =>
    nomatch (isRunChar_of_isDigit hdigit).symm.trans (isRunChar_eq_false_of_isNameChar h)

theorem ne_space_of_isDigit {c : Char} (h : c.isDigit = true) : c ≠ ' ' := by
  rintro rfl
  exact absurd h (by decide)

theorem ne_space_of_isNameChar {c : Char} (h : isNameChar c = true) : c ≠ ' ' := by
  rintro rfl
  exact absurd h (by decide)

namespace Token

/-- The characters that are tokens by themselves are the symbols of operators and punctuation
marks. -/
theorem ofSymbol?_eq_some_iff {c : Char} {t : Token} :
    ofSymbol? c = some t ↔
      (∃ op : Operator, t = operator op ∧ c = op.symbol) ∨
        ∃ mark : Punct, t = punct mark ∧ c = mark.symbol := by
  constructor
  · intro h
    unfold ofSymbol? at h
    split at h
    · exact .inr ⟨.leftParen, (Option.some.inj h).symm, rfl⟩
    · exact .inr ⟨.rightParen, (Option.some.inj h).symm, rfl⟩
    · exact .inr ⟨.comma, (Option.some.inj h).symm, rfl⟩
    · obtain ⟨op, hop, rfl⟩ := Option.map_eq_some_iff.1 h
      exact .inl ⟨op, rfl, Operator.ofSymbol?_eq_some_iff.1 hop⟩
  · rintro (⟨op, rfl, rfl⟩ | ⟨mark, rfl, rfl⟩)
    · cases op <;> rfl
    · cases mark <;> rfl

/-- A symbol is no space, digit, point, letter or sigil. -/
theorem kinds_of_ofSymbol? {c : Char} {t : Token} (h : ofSymbol? c = some t) :
    c ≠ ' ' ∧ Numeral.isRunChar c = false ∧ isNameChar c = false := by
  rcases ofSymbol?_eq_some_iff.1 h with ⟨op, -, rfl⟩ | ⟨mark, -, rfl⟩
  · cases op <;> decide
  · cases mark <;> decide

theorem isDigit_eq_false_of_ofSymbol? {c : Char} {t : Token} (h : ofSymbol? c = some t) :
    c.isDigit = false :=
  Bool.eq_false_iff.2 fun hdigit =>
    nomatch (isRunChar_of_isDigit hdigit).symm.trans (kinds_of_ofSymbol? h).2.1

/-! ### Single lexemes -/

section

variable (strict : Bool) (position : Nat)

@[simp] theorem scanFrom_nil : scanFrom strict position [] = .ok [] := by
  rw [scanFrom]

/-- A space is skipped. -/
theorem scanFrom_space (cs : List Char) :
    scanFrom strict position (' ' :: cs) = scanFrom strict (position + 1) cs := by
  rw [scanFrom, if_pos rfl]

/-- A digit, and all digits and points right behind it, are read as one number. -/
theorem scanFrom_number {c : Char} {run rest : List Char} (hc : c.isDigit = true)
    (hrun : ∀ d ∈ run, Numeral.isRunChar d = true)
    (hrest : ∀ d ∈ rest.head?, Numeral.isRunChar d = false) :
    scanFrom strict position (c :: (run ++ rest)) =
      (number (Numeral.ofRun (c :: run)).value :: ·) <$>
        scanFrom strict (position + 1 + run.length) rest := by
  rw [scanFrom, if_neg (ne_space_of_isDigit hc), if_pos hc]
  simp only [List.takeWhile_append_of_head? hrun hrest, List.dropWhile_append_of_head? hrun hrest,
    Numeral.ofText?_kept hc hrun]

/-- A letter or sigil, and all letters and sigils right behind it, are read as one name. If
identifiers are strict, there are no sigils among the latter. -/
theorem scanFrom_name {c : Char} {run rest : List Char} (hc : isNameChar c = true)
    (hrun : ∀ d ∈ run, isNameChar d = true) (hrest : ∀ d ∈ rest.head?, isNameChar d = false)
    (hstrict : strict = true → ∀ d ∈ run, d.isUpper = true) :
    scanFrom strict position (c :: (run ++ rest)) =
      (ofNameRun c run :: ·) <$> scanFrom strict (position + 1 + run.length) rest := by
  have hdigit : ¬ c.isDigit = true := by simp [isDigit_eq_false_of_isNameChar hc]
  rw [scanFrom, if_neg (ne_space_of_isNameChar hc), if_neg hdigit, if_pos hc]
  simp only [List.takeWhile_append_of_head? hrun hrest, List.dropWhile_append_of_head? hrun hrest]
  split
  · -- All of the run are letters, so nothing follows them.
    rename_i sigil more hdrop
    have hupper := hstrict rfl
    rw [← List.append_nil run, List.dropWhile_append_of_head? hupper (by simp)] at hdrop
    cases hdrop
  · rfl

/-- If identifiers are strict, a name ends before the first sigil inside it, and the sigil is
rejected. -/
theorem scanFrom_innerSigil {c sigil : Char} {letters rest : List Char}
    (hc : isNameChar c = true) (hletters : ∀ d ∈ letters, d.isUpper = true)
    (hsigil : isSigil sigil = true) :
    scanFrom true position (c :: (letters ++ sigil :: rest)) =
      .error (.invalidCharacter sigil (position + 1 + letters.length)) := by
  have hdigit : ¬ c.isDigit = true := by simp [isDigit_eq_false_of_isNameChar hc]
  have hsigil' : isNameChar sigil = true := isNameChar_iff.2 (.inr hsigil)
  have hupper : sigil.isUpper = false := by rw [isUpper_eq_not_isSigil hsigil', hsigil]; rfl
  -- The run goes on behind the sigil, up to some end that does not matter.
  obtain ⟨run, behind, rfl, hrun, hbehind⟩ := List.exists_span isNameChar rest
  have hall : ∀ d ∈ letters ++ sigil :: run, isNameChar d = true := by
    intro d hd
    rcases List.mem_append.1 hd with hd | hd
    · exact isNameChar_iff.2 (.inl (hletters d hd))
    · rcases List.mem_cons.1 hd with rfl | hd
      · exact hsigil'
      · exact hrun d hd
  have htop : ∀ d ∈ (sigil :: run).head?, d.isUpper = false := by simpa using hupper
  rw [scanFrom, if_neg (ne_space_of_isNameChar hc), if_neg hdigit, if_pos hc]
  rw [← List.cons_append, ← List.append_assoc]
  -- The whole run is taken first, and only then cut after its leading letters.
  simp only [List.takeWhile_append_of_head? hall hbehind,
    List.takeWhile_append_of_head? hletters htop, List.dropWhile_append_of_head? hletters htop]

/-- A run of letters and sigils that are not all letters has a first sigil. -/
theorem exists_sigil_of_not_isUpper {run : List Char} (hrun : ∀ d ∈ run, isNameChar d = true)
    (h : ¬ ∀ d ∈ run, d.isUpper = true) :
    ∃ letters sigil more, run = letters ++ sigil :: more ∧ (∀ d ∈ letters, d.isUpper = true) ∧
      isSigil sigil = true := by
  obtain ⟨letters, behind, rfl, hletters, hbehind⟩ := List.exists_span Char.isUpper run
  cases behind with
  | nil => exact absurd (by simpa using hletters) h
  | cons sigil more =>
    have hkind := isUpper_eq_not_isSigil (hrun sigil (by simp))
    rw [hbehind sigil rfl] at hkind
    exact ⟨letters, sigil, more, rfl, hletters, by simpa using hkind.symm⟩

/-- A name that is not let through fails at a sigil inside it, wherever it stands and whatever stands
behind it. -/
theorem exists_scanFrom_name_error {c : Char} {run : List Char} (hc : isNameChar c = true)
    (hrun : ∀ d ∈ run, isNameChar d = true)
    (h : ¬ (strict = true → ∀ d ∈ run, d.isUpper = true)) :
    ∃ sigil k, ∀ position rest, scanFrom strict position (c :: (run ++ rest)) =
      .error (.invalidCharacter sigil (position + 1 + k)) := by
  obtain ⟨rfl, hnot⟩ := Classical.not_imp.1 h
  obtain ⟨letters, sigil, more, rfl, hupper, hsigil⟩ := exists_sigil_of_not_isUpper hrun hnot
  refine ⟨sigil, letters.length, fun position rest => ?_⟩
  rw [List.append_assoc, List.cons_append, scanFrom_innerSigil position hc hupper hsigil]

/-- A symbol is a token by itself. -/
theorem scanFrom_symbol {c : Char} {t : Token} (cs : List Char) (h : ofSymbol? c = some t) :
    scanFrom strict position (c :: cs) = (t :: ·) <$> scanFrom strict (position + 1) cs := by
  obtain ⟨hspace, -, hname⟩ := kinds_of_ofSymbol? h
  have hdigit : ¬ c.isDigit = true := by simp [isDigit_eq_false_of_ofSymbol? h]
  rw [scanFrom, if_neg hspace, if_neg hdigit, if_neg (by simp [hname]), h]

/-- Any other character is rejected. -/
theorem scanFrom_other {c : Char} (cs : List Char) (hspace : c ≠ ' ') (hdigit : c.isDigit = false)
    (hname : isNameChar c = false) (hsymbol : ofSymbol? c = none) :
    scanFrom strict position (c :: cs) = .error (.invalidCharacter c position) := by
  rw [scanFrom, if_neg hspace, if_neg (by simp [hdigit]), if_neg (by simp [hname]), hsymbol]

end

/-! ### All lexemes of a text -/

/-- What holds of the empty text, and of a text if it holds behind its first lexeme, holds of every
text. Nothing is assumed behind a character that begins no lexeme. -/
@[elab_as_elim]
theorem lexeme_induct {motive : List Char → Prop} (nil : motive [])
    (space : ∀ cs, motive cs → motive (' ' :: cs))
    (number : ∀ c run rest, c.isDigit = true → (∀ d ∈ run, Numeral.isRunChar d = true) →
      (∀ d ∈ rest.head?, Numeral.isRunChar d = false) → motive rest → motive (c :: (run ++ rest)))
    (name : ∀ c run rest, isNameChar c = true → (∀ d ∈ run, isNameChar d = true) →
      (∀ d ∈ rest.head?, isNameChar d = false) → motive rest → motive (c :: (run ++ rest)))
    (symbol : ∀ c t cs, ofSymbol? c = some t → motive cs → motive (c :: cs))
    (other : ∀ c cs, c ≠ ' ' → c.isDigit = false → isNameChar c = false → ofSymbol? c = none →
      motive (c :: cs))
    (cs : List Char) : motive cs := by
  -- What lies behind a lexeme is shorter than the text.
  induction hlength : cs.length using Nat.strongRecOn generalizing cs with
  | ind length ih =>
    have shorter : ∀ rest : List Char, rest.length < cs.length → motive rest :=
      fun rest hrest => ih rest.length (hlength ▸ hrest) rest rfl
    have behind : ∀ (c : Char) (run rest : List Char),
        rest.length < (c :: (run ++ rest)).length := fun c run rest => by
      rw [List.length_cons, List.length_append]
      omega
    match cs with
    | [] => exact nil
    | c :: cs =>
      -- The tests stand in the order of the scanner's.
      by_cases hspace : c = ' '
      · subst hspace
        exact space cs (shorter cs (Nat.lt_succ_self _))
      by_cases hdigit : c.isDigit = true
      · obtain ⟨run, rest, rfl, hrun, hrest⟩ := List.exists_span Numeral.isRunChar cs
        exact number c run rest hdigit hrun hrest (shorter rest (behind c run rest))
      by_cases hname : isNameChar c = true
      · obtain ⟨run, rest, rfl, hrun, hrest⟩ := List.exists_span isNameChar cs
        exact name c run rest hname hrun hrest (shorter rest (behind c run rest))
      cases hsymbol : ofSymbol? c with
      | some t => exact symbol c t cs hsymbol (shorter cs (Nat.lt_succ_self _))
      | none =>
        exact other c cs hspace (Bool.eq_false_iff.2 hdigit) (Bool.eq_false_iff.2 hname) hsymbol

end Token

end Calculator
