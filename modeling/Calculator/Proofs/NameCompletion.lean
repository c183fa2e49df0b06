import Calculator.Completion
import Calculator.Proofs.ScanAppend
import Calculator.Proofs.TokenText
import Mathlib.Logic.ExistsUnique

/-!
# Completion of names

What is completed at a cursor is the longest run of letters and sigils that ends there. The scanner
reads the same characters as one name, because it reads them as long as possible and what stands in
front of the run belongs to other tokens. So what takes the place of the run is scanned as it is
meant: as a reference or key, or as the name of a function and a parenthesis.

## Key results

- `takeBytes_append`: the characters before a cursor
- `nameRun_append`, `existsUnique_nameRun`: the run that ends there
- `scan_append_name`, `scan_append_call`: what is completed can be scanned
- `complete_spec`: the completions in a line
-/

namespace Calculator

namespace Completion

/-- `run` is the longest run of letters and sigils at the end of `front ++ run`. -/
structure NameRun (front run : List Char) : Prop where
  isNameChar : ∀ c ∈ run, isNameChar c = true
  left : ∀ c ∈ front.getLast?, Calculator.isNameChar c = false

/-! ### Cursors -/

/-- The bytes of a text are those of its first character and of the rest. -/
theorem utf8ByteSize_ofList_cons (c : Char) (cs : List Char) :
    (String.ofList (c :: cs)).utf8ByteSize = c.utf8Size + (String.ofList cs).utf8ByteSize := by
  rw [← List.singleton_append, String.ofList_append, String.utf8ByteSize_append,
    ← String.singleton_eq_ofList, String.utf8ByteSize_singleton]

/-- As many bytes as some characters at the start of a text have are those characters. -/
theorem takeBytes_append (xs ys : List Char) :
    takeBytes (String.ofList xs).utf8ByteSize (xs ++ ys) = xs := by
  induction xs with
  | nil =>
    cases ys with
    | nil => rfl
    -- No bytes are left, and every further character takes at least one.
    | cons c ys => exact if_pos c.utf8Size_pos
  | cons c xs ih =>
    rw [utf8ByteSize_ofList_cons, List.cons_append, takeBytes, if_neg (by omega),
      Nat.add_sub_cancel_left, ih]

/-- Letters and sigils are one byte long each. -/
theorem utf8ByteSize_of_isNameChar {cs : List Char} (h : ∀ c ∈ cs, isNameChar c = true) :
    (String.ofList cs).utf8ByteSize = cs.length := by
  induction cs with
  | nil => rfl
  | cons c cs ih =>
    obtain ⟨hc, hcs⟩ := List.forall_mem_cons.1 h
    have hallowed : Token.isAllowed c = true := Token.isAllowed_iff.2 (.inr (.inr (.inl hc)))
    rw [utf8ByteSize_ofList_cons, Token.utf8Size_of_isAllowed hallowed, ih hcs, List.length_cons,
      Nat.add_comm]

/-! ### Runs -/

variable {front run : List Char}

/-- The run at the end of a text is found. -/
theorem nameRun_append (h : NameRun front run) : nameRun (front ++ run) = run := by
  rw [nameRun, List.reverse_append, List.takeWhile_append_of_head?, List.reverse_reverse]
  · simpa using h.isNameChar
  · simpa using h.left

/-- Every text ends in one such run, which may be empty. -/
theorem existsUnique_nameRun (before : String) :
    ∃! parts : String × String,
      before = parts.1 ++ parts.2 ∧ NameRun parts.1.toList parts.2.toList := by
  -- Read backwards, the text begins with the run.
  obtain ⟨run, front, hsplit, hrun, hfront⟩ :=
    List.exists_span isNameChar before.toList.reverse
  have hbefore : before.toList = front.reverse ++ run.reverse := by
    rw [← List.reverse_append, ← hsplit, List.reverse_reverse]
  have hparts : NameRun front.reverse run.reverse := ⟨by simpa using hrun, by simpa using hfront⟩
  refine ⟨(String.ofList front.reverse, String.ofList run.reverse), ⟨?_, ?_⟩, ?_⟩
  · rw [← String.ofList_append, ← hbefore, String.ofList_toList]
  · simpa only [String.toList_ofList] using hparts
  · -- Another split would have another run at the end, and the run is found from the text alone.
    rintro ⟨front', run'⟩ ⟨rfl, hparts'⟩
    rw [String.toList_append] at hbefore
    have hrun' : run'.toList = run.reverse := by
      rw [← nameRun_append hparts', hbefore, nameRun_append hparts]
    rw [hrun'] at hbefore
    rw [← hrun', ← List.append_cancel_right hbefore, String.ofList_toList, String.ofList_toList]

/-! ### Candidates -/

variable (bound : List String)

/-- Behind a sigil, the bound names are candidates that begin with the rest of the run. -/
theorem candidatesFor_of_isSigil {sigil : Char} (h : isSigil sigil = true) (rest : List Char) :
    candidatesFor bound (sigil :: rest) =
      (bound.filter fun name => rest.isPrefixOf name.toList).map fun name =>
        ⟨name, String.singleton sigil ++ name⟩ := by
  rw [candidatesFor, if_pos h]
  -- The same candidates, with their replacements as strings.
  refine List.map_congr_left fun name _ => congrArg (Candidate.mk name) (String.toList_inj.1 ?_)
  rw [String.toList_ofList, String.toList_append, String.toList_singleton, List.singleton_append]

/-- Without a sigil, the functions are candidates whose names begin with the run. -/
theorem candidatesFor_of_not_isSigil (hne : run ≠ []) (h : ∀ c ∈ run.head?, isSigil c = false) :
    candidatesFor bound run =
      (Builtin.all.filter fun b => run.isPrefixOf b.name.toList).map fun b =>
        ⟨b.name, b.name ++ "("⟩ := by
  cases run with
  | nil => exact absurd rfl hne
  | cons first rest => exact if_neg (by simp [h first rfl])

/-- Every candidate goes on where the run ends. -/
theorem prefix_replacement {candidate : Candidate} (h : candidate ∈ candidatesFor bound run) :
    run <+: candidate.replacement.toList := by
  cases run with
  | nil => exact List.nil_prefix
  | cons first rest =>
    cases hsigil : isSigil first with
    -- The sigil stays in front, and the rest of the run begins the name.
    | true =>
      rw [candidatesFor_of_isSigil bound hsigil] at h
      obtain ⟨name, hname, rfl⟩ := List.mem_map.1 h
      have hprefix := List.isPrefixOf_iff_prefix.1 (List.mem_filter.1 hname).2
      rw [String.toList_append, String.toList_singleton]
      exact List.prefix_append_right_inj [first] |>.2 hprefix
    -- The name of the function begins with the whole run.
    | false =>
      rw [candidatesFor_of_not_isSigil bound (List.cons_ne_nil first rest) (by simp [hsigil])] at h
      obtain ⟨b, hb, rfl⟩ := List.mem_map.1 h
      have hprefix := List.isPrefixOf_iff_prefix.1 (List.mem_filter.1 hb).2
      rw [String.toList_append]
      exact hprefix.trans (List.prefix_append _ _)

/-! ### Scanning -/

section

variable {front run : String} (h : NameRun front.toList run.toList) {ts : List Token}
  (hts : Token.scan .lenient front = .ok ts)
include h hts

/-- In the place of a run, the text of a token that begins with a letter or sigil is read as that
token, up to a character that belongs to no run. -/
theorem scan_append_text {t : Token} (ht : t.Writable) {c : Char} {name : List Char}
    (htext : t.text.toList = c :: name) (hc : isNameChar c = true) (rest : String)
    (hrest : ∀ d ∈ rest.toList.head?,
      Numeral.isRunChar d = false ∧ isNameChar d = false) :
    Token.scan .lenient (front ++ (t.text ++ rest)) =
      (ts ++ t :: ·) <$> Token.scanFrom false
        (0 + front.toList.length + t.text.toList.length) rest.toList := by
  -- No run reaches into the token: the name starts afresh where the run did.
  have hboundary : Token.Boundary front.toList.getLast? (t.text.toList ++ rest.toList) := by
    rw [htext]
    rintro d ⟨⟩
    exact ⟨fun hrun => (nomatch hrun.symm.trans (isRunChar_eq_false_of_isNameChar hc)),
      fun _ => h.left⟩
  have hread := Token.scanFrom_text (0 + front.toList.length) ht
    (fun hstrict => absurd hstrict Bool.false_ne_true) hrest
  rw [Token.scan, String.toList_append, String.toList_append,
    Token.scanFrom_append_of_ok hts hboundary]
  exact (congrArg ((ts ++ ·) <$> ·) hread).trans (comp_map (t :: ·) (ts ++ ·) _).symm

/-- A name behind a sigil in the place of a run is scanned as a reference or key. -/
theorem scan_append_name {sigil : Char} (hsigil : isSigil sigil = true) {name : String}
    (hname : ∀ c ∈ name.toList, isNameChar c = true) :
    Token.scan .lenient (front ++ (String.singleton sigil ++ name)) =
      .ok (ts ++ [if sigil = '$' then .reference name else .key name]) := by
  have htext : (String.singleton sigil ++ name).toList = sigil :: name.toList := by
    rw [String.toList_append, String.toList_singleton, List.singleton_append]
  have hfirst : isNameChar sigil = true := isNameChar_iff.2 (.inr hsigil)
  -- Reference or key, the scan is the same, so the kind of the token is left open.
  have hread : ∀ t : Token, t.text = String.singleton sigil ++ name → t.Writable →
      Token.scan .lenient (front ++ (String.singleton sigil ++ name)) = .ok (ts ++ [t]) := by
    intro t ht hwritable
    have hscan := scan_append_text h hts hwritable (ht ▸ htext) hfirst "" nofun
    rwa [String.append_empty, ht, String.toList_empty, Token.scanFrom_nil] at hscan
  rcases isSigil_iff.1 hsigil with rfl | rfl
  · exact hread (.reference name) rfl hname
  · exact hread (.key name) rfl hname

/-- The name of a function and a parenthesis in the place of a run are scanned as these. -/
theorem scan_append_call (b : Builtin) :
    Token.scan .lenient (front ++ (b.name ++ "(")) =
      .ok (ts ++ [.function b.name, .punct .leftParen]) := by
  have hwritable : (Token.function b.name).Writable := by cases b <;> decide
  obtain ⟨c, name, htext, hc⟩ :
      ∃ c name, b.name.toList = c :: name ∧ isNameChar c = true := by
    cases b <;> exact ⟨_, _, rfl, rfl⟩
  -- The parenthesis belongs to no run, so the name ends in front of it.
  have hparen : ∀ d ∈ "(".toList.head?,
      Numeral.isRunChar d = false ∧ isNameChar d = false := by
    rintro d ⟨⟩
    exact ⟨rfl, rfl⟩
  refine (scan_append_text h hts hwritable htext hc "(" hparen).trans ?_
  rw [show "(".toList = ['('] from rfl, Token.scanFrom_symbol false _ [] rfl, Token.scanFrom_nil]
  rfl

end

variable {front run : String}

/-- The completions in a line, in front of a cursor with a run. -/
theorem complete_eq (h : NameRun front.toList run.toList) (after : String) :
    complete bound (front ++ run ++ after) (front ++ run).utf8ByteSize =
      ⟨front.utf8ByteSize, candidatesFor bound run.toList⟩ := by
  have htake : takeBytes (front ++ run).utf8ByteSize (front ++ run ++ after).toList =
      front.toList ++ run.toList := by
    have hbytes := takeBytes_append (front ++ run).toList after.toList
    rwa [String.ofList_toList, ← String.toList_append,
      String.toList_append (s := front)] at hbytes
  -- The start is counted in characters of the run, which are bytes as well.
  have hsize : run.utf8ByteSize = run.toList.length := by
    rw [← utf8ByteSize_of_isNameChar h.isNameChar, String.ofList_toList]
  simp only [complete, htake, nameRun_append h]
  rw [String.utf8ByteSize_append, hsize, Nat.add_sub_cancel]

/-- The text in front of a cursor ends in exactly one longest run of letters and sigils, and a
completion begins where the run does, in bytes. An empty run is not completed. Behind a sigil the
candidates are the bound names that begin with the rest of the run, and otherwise the functions
whose names begin with the run, in the order in which they are listed. Every candidate goes on
where the run ends. If the text in front of the run has tokens, a name in the place of the run adds
one to them, a reference or a key, and a function adds its name and a parenthesis. -/
theorem complete_spec :
    (∀ before : String, ∃! parts : String × String,
      before = parts.1 ++ parts.2 ∧ NameRun parts.1.toList parts.2.toList) ∧
    ∀ front run after : String, NameRun front.toList run.toList →
      let found := complete bound (front ++ run ++ after) (front ++ run).utf8ByteSize
      found.start = front.utf8ByteSize ∧
        (run = "" → found.candidates = []) ∧
        (∀ sigil rest, run.toList = sigil :: rest → isSigil sigil = true →
          found.candidates = (bound.filter fun name => rest.isPrefixOf name.toList).map fun name =>
            ⟨name, String.singleton sigil ++ name⟩) ∧
        (run ≠ "" → (∀ c ∈ run.toList.head?, isSigil c = false) →
          found.candidates =
            (Builtin.all.filter fun b => run.toList.isPrefixOf b.name.toList).map fun b =>
              ⟨b.name, b.name ++ "("⟩) ∧
        (∀ candidate ∈ found.candidates, run.toList <+: candidate.replacement.toList) ∧
        ∀ ts, Token.scan .lenient front = .ok ts →
          (∀ sigil name, isSigil sigil = true →
            (∀ c ∈ name.toList, isNameChar c = true) →
            Token.scan .lenient (front ++ (String.singleton sigil ++ name)) =
              .ok (ts ++ [if sigil = '$' then .reference name else .key name])) ∧
          ∀ b : Builtin, Token.scan .lenient (front ++ (b.name ++ "(")) =
            .ok (ts ++ [.function b.name, .punct .leftParen]) := by
  refine ⟨existsUnique_nameRun, fun front run after h => ?_⟩
  intro found
  have hfound : found = ⟨front.utf8ByteSize, candidatesFor bound run.toList⟩ :=
    complete_eq bound h after
  rw [hfound]
  refine ⟨rfl, ?_, ?_, fun hne => ?_, fun _ => prefix_replacement bound, fun ts hts => ?_⟩
  · rintro rfl
    rfl
  · intro sigil rest hrun hsigil
    rw [hrun]
    exact candidatesFor_of_isSigil bound hsigil rest
  · exact candidatesFor_of_not_isSigil bound (mt String.toList_eq_nil_iff.1 hne)
  · exact ⟨fun sigil name hsigil => scan_append_name h hts hsigil, scan_append_call h hts⟩

/-- A key is completed behind characters of two bytes, and the name of a function behind a
number. -/
theorem complete_spec_key :
    complete ["E", "FR", "FRA"] "äö #F + 1" 7 = ⟨5, [⟨"FR", "#FR"⟩, ⟨"FRA", "#FRA"⟩]⟩ ∧
      complete ["E"] "2*S" 3 = ⟨2, [⟨"SQRT", "SQRT("⟩, ⟨"SET", "SET("⟩]⟩ ∧
      Token.scan .lenient "2*SQRT(" =
        .ok [.number 2, .operator .mul, .function "SQRT", .punct .leftParen] := by
  have hkey : NameRun "äö ".toList "#F".toList :=
    ⟨List.all_eq_true.1 (by decide), by rintro c ⟨⟩; rfl⟩
  have hfunction : NameRun "2*".toList "S".toList :=
    ⟨List.all_eq_true.1 (by decide), by rintro c ⟨⟩; rfl⟩
  obtain ⟨hstart, -, hnames, -⟩ := (complete_spec ["E", "FR", "FRA"]).2 "äö " "#F" " + 1" hkey
  obtain ⟨hstart', -, -, hfunctions, -, hscan⟩ := (complete_spec ["E"]).2 "2*" "S" "" hfunction
  -- No function begins with a sigil.
  have hfirst : ∀ c ∈ "S".toList.head?, isSigil c = false := by
    rintro c ⟨⟩
    rfl
  have hfront : Token.scan .lenient "2*" = .ok [.number 2, .operator .mul] := by decide +kernel
  refine ⟨?_, ?_, (hscan _ hfront).2 .sqrt⟩
  · exact congrArg₂ Completion.mk hstart (hnames '#' ['F'] rfl rfl)
  · exact congrArg₂ Completion.mk hstart' (hfunctions (by decide) hfirst)

end Completion

end Calculator
