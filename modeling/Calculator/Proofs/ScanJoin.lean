import Calculator.Calculation
import Calculator.Proofs.CommandLine
import Calculator.Proofs.ScanAppend
import Mathlib.Algebra.GroupWithZero.Nat

/-!
# Texts joined by spaces

No lexeme has a space in it, so texts with a space between them are scanned one by one. The scanner
keeps nothing from one lexeme to the next but its position: the tokens of a text do not depend on
where the text begins, and an error moves with the text. An expression that is given in several
arguments is joined like this.

## Key results

- `scanFrom_add`: a text further to the right
- `scan_append_space`: two texts with a space between them
- `scan_intercalate_of_ok`, `scan_intercalate_of_error`: texts that have tokens, and the first that
  has none
- `scan_intercalate`: arguments that are joined to an expression
-/

namespace Calculator

/-- The error in a text, where `offset` characters stand in front of the text. -/
def ScanError.shift (offset : Nat) : ScanError → ScanError
  | invalidCharacter c position => invalidCharacter c (offset + position)

namespace Token

/-! ### Positions -/

theorem mapError_map {α β : Type} {ε ε' : Type} (f : α → β) (g : ε → ε') (result : Except ε α) :
    (f <$> result).mapError g = f <$> result.mapError g := by
  cases result with
  | error e => rfl
  | ok a => rfl

/-- The tokens of a text do not depend on where it begins, and its error moves with it. -/
theorem scanFrom_add (strict : Bool) (offset position : Nat) (cs : List Char) :
    scanFrom strict (offset + position) cs =
      (scanFrom strict position cs).mapError (.shift offset) := by
  have hbehind : ∀ start k, offset + start + 1 + k = offset + (start + 1 + k) :=
    fun start k => by omega
  induction cs using lexeme_induct generalizing position with
  | nil =>
    rw [scanFrom_nil, scanFrom_nil]
    rfl
  | space cs ih => rw [scanFrom_space, scanFrom_space, Nat.add_assoc, ih]
  | number c run rest hc hrun hrest ih =>
    rw [scanFrom_number strict _ hc hrun hrest, scanFrom_number strict _ hc hrun hrest,
      mapError_map, hbehind, ih]
  | name c run rest hc hrun hrest ih =>
    by_cases hletters : strict = true → ∀ d ∈ run, d.isUpper = true
    · rw [scanFrom_name strict _ hc hrun hrest hletters,
        scanFrom_name strict _ hc hrun hrest hletters, mapError_map, hbehind, ih]
    · -- Both scans stop at the sigil inside the name.
      obtain ⟨sigil, k, herror⟩ := exists_scanFrom_name_error strict hc hrun hletters
      rw [herror, herror, hbehind]
      rfl
  | symbol c t cs hsymbol ih =>
    rw [scanFrom_symbol strict _ cs hsymbol, scanFrom_symbol strict _ cs hsymbol, mapError_map,
      Nat.add_assoc, ih]
  | other c cs hspace hdigit hname hsymbol =>
    rw [scanFrom_other strict _ cs hspace hdigit hname hsymbol,
      scanFrom_other strict _ cs hspace hdigit hname hsymbol]
    rfl

/-! ### Joined texts -/

variable {strictness : Strictness}

/-- Two texts with a space between them are scanned one after the other. -/
theorem scan_append_space (strictness : Strictness) (first second : String) :
    scan strictness (first ++ " " ++ second) =
      (scan strictness first).bind fun before =>
        (before ++ ·) <$> (scan strictness second).mapError (.shift (first.length + 1)) := by
  have htext : (first ++ " " ++ second).toList = first.toList ++ ' ' :: second.toList := by simp
  -- The space belongs to no run, whatever stands in front of it.
  have hboundary : Boundary first.toList.getLast? (' ' :: second.toList) := by
    rintro c ⟨⟩
    exact ⟨nofun, nofun⟩
  -- The second text stands behind the first and the space, so its errors move by that much.
  rw [scan, htext, scanFrom_append _ _ hboundary, scanFrom_space, String.length_toList,
    Nat.zero_add, ← Nat.add_zero (first.length + 1), scanFrom_add]
  rfl

theorem scan_empty (strictness : Strictness) : scan strictness "" = .ok [] :=
  scanFrom_nil strictness.identifiers 0

/-- Texts that have tokens have all of them together. -/
theorem scan_intercalate_of_ok {pieces : List String} {tokens : List (List Token)}
    (h : pieces.map (scan strictness) = tokens.map .ok) :
    scan strictness (" ".intercalate pieces) = .ok tokens.flatten := by
  induction pieces generalizing tokens with
  | nil =>
    rw [List.map_eq_nil_iff.1 h.symm]
    exact scan_empty strictness
  | cons piece rest ih =>
    obtain ⟨ts, more, rfl, hts, hmore⟩ := List.map_eq_cons_iff.1 h.symm
    have hrest := ih hmore.symm
    -- A space is written only if another text follows.
    cases rest with
    | nil =>
      obtain rfl := List.map_eq_nil_iff.1 hmore
      rw [String.intercalate_singleton, ← hts]
      simp
    | cons next rest =>
      rw [String.intercalate_cons_cons, scan_append_space, ← hts, hrest]
      rfl

/-- Behind texts that have tokens, the first one that has none fails where it stands. -/
theorem scan_intercalate_of_error {before after : List String} {piece : String} {c : Char}
    {position : Nat} (hbefore : ∀ text ∈ before, ∃ tokens, scan strictness text = .ok tokens)
    (hpiece : scan strictness piece = .error (.invalidCharacter c position)) :
    scan strictness (" ".intercalate (before ++ piece :: after)) =
      .error (.invalidCharacter c ((before.map String.length).sum + before.length + position)) := by
  induction before with
  | nil =>
    cases after with
    | nil => simpa using hpiece
    | cons next rest =>
      rw [List.nil_append, String.intercalate_cons_cons, scan_append_space, hpiece]
      simp [Except.bind]
  | cons text before ih =>
    obtain ⟨⟨tokens, htokens⟩, hbefore⟩ := List.forall_mem_cons.1 hbefore
    rw [List.cons_append, String.intercalate_cons_of_ne_nil (by simp), scan_append_space, htokens,
      ih hbefore]
    -- The error moves behind the first text and the space, on top of what `ih` counts.
    refine congrArg (fun k => Except.error (ScanError.invalidCharacter c k)) ?_
    simp only [List.map_cons, List.sum_cons, List.length_cons]
    omega

/-- A text that has tokens is as long in bytes as in characters. -/
theorem utf8ByteSize_of_scan {text : String} {tokens : List Token}
    (h : scan strictness text = .ok tokens) : text.utf8ByteSize = text.length := by
  have hclean := utf8ByteSize_of_clean (scan_ok_iff.1 ⟨tokens, h⟩)
  rwa [String.ofList_toList, String.length_toList] at hclean

/-- Where an error is reported, its character stands, in bytes as in characters. -/
theorem exists_of_scan_error {text : String} {c : Char} {position : Nat}
    (h : scan strictness text = .error (.invalidCharacter c position)) :
    ∃ front back : String, text = front ++ String.singleton c ++ back ∧
      front.length = position ∧ front.utf8ByteSize = position := by
  obtain ⟨before, after, htext, rfl, hclean, -⟩ := scan_error_iff.1 h
  refine ⟨String.ofList before, String.ofList after, ?_, String.length_ofList,
    utf8ByteSize_of_clean hclean⟩
  rw [← String.toList_inj, htext]
  simp

/-- Either all texts have tokens, or there is a first one that has none. -/
theorem forall_ok_or_first_error (strictness : Strictness) (pieces : List String) :
    (∃ tokens : List (List Token), pieces.map (scan strictness) = tokens.map .ok) ∨
      ∃ before piece after c position, pieces = before ++ piece :: after ∧
        (∀ text ∈ before, ∃ tokens, scan strictness text = .ok tokens) ∧
        scan strictness piece = .error (.invalidCharacter c position) := by
  induction pieces with
  | nil => exact .inl ⟨[], rfl⟩
  | cons piece rest ih =>
    -- The first text fails itself, or the others decide.
    match hpiece : scan strictness piece with
    | .error (.invalidCharacter c position) =>
      exact .inr ⟨[], piece, rest, c, position, rfl, nofun, hpiece⟩
    | .ok ts =>
      rcases ih with ⟨tokens, htokens⟩ | ⟨before, text, after, c, position, rfl, hbefore, htext⟩
      · refine .inl ⟨ts :: tokens, ?_⟩
        rw [List.map_cons, List.map_cons, hpiece, htokens]
      · exact .inr ⟨piece :: before, text, after, c, position, rfl,
          List.forall_mem_cons.2 ⟨⟨ts, hpiece⟩, hbefore⟩, htext⟩

/-- The arguments of an expression are joined by spaces. If all of them have tokens, the expression
has these one after the other. Otherwise it fails at the error of the first argument that has none,
which is reported behind the arguments in front of it and the spaces. -/
theorem scan_intercalate (strictness : Strictness) {pieces : List String} (hpieces : pieces ≠ []) :
    (∀ program arguments, "-c" ∉ arguments →
      (Invocation.ofArguments (program :: (arguments ++ "-c" :: pieces))).command =
        some (" ".intercalate pieces)) ∧
    (∀ tokens : List (List Token), pieces.map (scan strictness) = tokens.map .ok →
      scan strictness (" ".intercalate pieces) = .ok tokens.flatten) ∧
    (∀ before piece after c position, pieces = before ++ piece :: after →
      (∀ text ∈ before, ∃ tokens, scan strictness text = .ok tokens) →
      scan strictness piece = .error (.invalidCharacter c position) →
      let offset := (before.map String.utf8ByteSize).sum + before.length
      offset = (before.map String.length).sum + before.length ∧
      scan strictness (" ".intercalate pieces) =
        .error (.invalidCharacter c (offset + position)) ∧
      ∃ front back, " ".intercalate pieces = front ++ String.singleton c ++ back ∧
        front.length = offset + position ∧ front.utf8ByteSize = offset + position) ∧
    ((∃ tokens : List (List Token), pieces.map (scan strictness) = tokens.map .ok) ∨
      ∃ before piece after c position, pieces = before ++ piece :: after ∧
        (∀ text ∈ before, ∃ tokens, scan strictness text = .ok tokens) ∧
        scan strictness piece = .error (.invalidCharacter c position)) := by
  refine ⟨fun program arguments harguments => ?_, fun tokens => scan_intercalate_of_ok, ?_,
    forall_ok_or_first_error strictness pieces⟩
  · exact congrArg Invocation.command
      (Invocation.addArguments_expression .none harguments hpieces)
  · rintro before piece after c position rfl hbefore hpiece offset
    -- Texts in front of the error have tokens, so they are in one-byte characters.
    have hbytes : before.map String.utf8ByteSize = before.map String.length :=
      List.map_congr_left fun text htext => utf8ByteSize_of_scan (hbefore text htext).choose_spec
    have hoffset : offset = (before.map String.length).sum + before.length := by
      rw [← hbytes]
    have herror : scan strictness (" ".intercalate (before ++ piece :: after)) =
        .error (.invalidCharacter c (offset + position)) := by
      rw [hoffset]
      exact scan_intercalate_of_error hbefore hpiece
    exact ⟨hoffset, herror, exists_of_scan_error herror⟩

/-- A number that ends in a point and a lone sigil, with which nothing runs together that stands
behind a space, and a sigil inside a name. -/
theorem scan_intercalate_loose_ends :
    let pieces := ["2*1.", "$", "", "A$B"]
    (Invocation.ofArguments ("formula" :: "--json" :: "-c" :: pieces)).command =
        some "2*1. $  A$B" ∧
      scan .lenient (" ".intercalate pieces) =
        .ok [number 2, operator .mul, number 1, reference "", function "A$B"] ∧
      scan .strict (" ".intercalate pieces) = .error (.invalidCharacter '$' 9) := by
  intro pieces
  obtain ⟨hcommand, htokens, -⟩ := @scan_intercalate .lenient pieces (by decide)
  obtain ⟨-, -, herror, -⟩ := @scan_intercalate .strict pieces (by decide)
  have hbefore : ∀ text ∈ ["2*1.", "$", ""], ∃ tokens, scan .strict text = .ok tokens := by
    simp only [List.forall_mem_cons]
    exact ⟨⟨[number 2, operator .mul, number 1], by decide +kernel⟩,
      ⟨[reference ""], by decide +kernel⟩, ⟨[], by decide +kernel⟩, nofun⟩
  exact ⟨(hcommand "formula" ["--json"] (by decide)).trans (by decide +kernel),
    htokens [[number 2, operator .mul, number 1], [reference ""], [], [function "A$B"]]
      (by decide +kernel),
    (herror ["2*1.", "$", ""] "A$B" [] '$' 1 rfl hbefore (by decide +kernel)).2.1⟩

end Token

end Calculator
