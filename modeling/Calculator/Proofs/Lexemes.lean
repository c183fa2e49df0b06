import Calculator.Calculation
import Calculator.Proofs.ScanVerdict
import Calculator.Proofs.TokenText

/-!
# The lexemes of a text

A text that has tokens is made up of one lexeme for each of them and of spaces, and nothing is lost:
without the spaces the text is its lexemes one after the other. A lexeme is a symbol, or a run of
digits and points or of letters and sigils that cannot be made longer to either side, whatever the
tokens next to it are.

The relation `Lexemes` says this without the scanner, and the scanner decides it.

## Key results

- `lexemes_of_scanFrom`, `scanFrom_of_lexemes`: what is scanned are the lexemes
- `scan_eq_ok_iff`: the tokens of a text are those of its lexemes
- `Lexemes.flatten_eq`, `Lexemes.exists_of_append`: the text in its lexemes
- `scanFrom_round`: no round of the scanner is without progress
- `scan_lossless`: all of it about whole texts
-/

namespace Calculator.Token

/-- `run` is a longest run of characters of a kind in `before ++ run ++ after`. -/
structure LongestRun (kind : Char → Bool) (before run after : List Char) : Prop where
  ne_nil : run ≠ []
  all : ∀ c ∈ run, kind c = true
  left : ∀ c ∈ before.getLast?, kind c = false
  right : ∀ c ∈ after.head?, kind c = false

/-- A lexeme between `before` and `after`, and the token it stands for. -/
inductive Lexeme (before after : List Char) : List Char → Token → Prop
  | number {run : List Char} (h : LongestRun Numeral.isRunChar before run after)
      (hfirst : ∀ c ∈ run.head?, c.isDigit = true) :
      Lexeme before after run (number (Numeral.ofRun run).value)
  | reference {name : List Char} (h : LongestRun isNameChar before ('$' :: name) after) :
      Lexeme before after ('$' :: name) (reference (String.ofList name))
  | key {name : List Char} (h : LongestRun isNameChar before ('#' :: name) after) :
      Lexeme before after ('#' :: name) (key (String.ofList name))
  | function {name : List Char} (h : LongestRun isNameChar before name after)
      (hfirst : ∀ c ∈ name.head?, isSigil c = false) :
      Lexeme before after name (function (String.ofList name))
  | operator (op : Operator) : Lexeme before after [op.symbol] (operator op)
  | punct (mark : Punct) : Lexeme before after [mark.symbol] (punct mark)

/-- The lexemes of a text with their tokens, where `before` stands in front of the text. There is
nothing but spaces between them. -/
inductive Lexemes : List Char → List Char → List (List Char × Token) → Prop
  | nil {before : List Char} : Lexemes before [] []
  | space {before rest : List Char} {pieces : List (List Char × Token)}
      (h : Lexemes (before ++ [' ']) rest pieces) : Lexemes before (' ' :: rest) pieces
  | lexeme {before lexeme rest : List Char} {t : Token} {pieces : List (List Char × Token)}
      (hlexeme : Lexeme before rest lexeme t) (h : Lexemes (before ++ lexeme) rest pieces) :
      Lexemes before (lexeme ++ rest) ((lexeme, t) :: pieces)

/-! ### Single lexemes -/

section

variable {kind : Char → Bool} {before after lexeme : List Char} {t : Token}

/-- A run with nothing of its kind on either side is a longest one. -/
theorem LongestRun.of_cons {c : Char} {run : List Char} (hc : kind c = true)
    (hrun : ∀ d ∈ run, kind d = true) (hleft : ∀ d ∈ before.getLast?, kind d = false)
    (hright : ∀ d ∈ after.head?, kind d = false) : LongestRun kind before (c :: run) after :=
  ⟨List.cons_ne_nil c run, List.forall_mem_cons.2 ⟨hc, hrun⟩, hleft, hright⟩

/-- Behind a longest run nothing begins that belongs to it. -/
theorem LongestRun.boundary {run : List Char} (h : LongestRun kind before run after)
    (hkind : kind = Numeral.isRunChar ∨ kind = isNameChar) :
    Boundary (before ++ run).getLast? after := by
  intro c hc
  have hright := h.right c hc
  have hlast : ∀ p ∈ (before ++ run).getLast?, kind p = true := fun p hp => by
    rw [List.getLast?_append_of_ne_nil _ h.ne_nil] at hp
    exact h.all p (List.mem_of_getLast? hp)
  -- No character is of both kinds, so the run says which of the two conditions needs an argument.
  rcases hkind with rfl | rfl
  · exact ⟨fun hrun => absurd (hrun.symm.trans hright) nofun,
      fun _ p hp => isNameChar_eq_false_of_isRunChar (hlast p hp)⟩
  · exact ⟨fun _ p hp => isRunChar_eq_false_of_isNameChar (hlast p hp),
      fun hname => absurd (hname.symm.trans hright) nofun⟩

/-- A longest run of letters and sigils stands for the token of the name. -/
theorem lexeme_ofNameRun {c : Char} {run : List Char}
    (h : LongestRun isNameChar before (c :: run) after) :
    Lexeme before after (c :: run) (ofNameRun c run) := by
  cases hsigil : isSigil c with
  | false =>
    rw [ofNameRun_of_not_isSigil hsigil]
    exact .function h fun d hd => Option.some.inj hd ▸ hsigil
  -- A sigil decides between a reference and a key.
  | true =>
    rcases isSigil_iff.1 hsigil with rfl | rfl
    · exact .reference h
    · exact .key h

namespace Lexeme

theorem ne_nil (h : Lexeme before after lexeme t) : lexeme ≠ [] := by
  cases h with
  | number h => exact h.ne_nil
  | function h => exact h.ne_nil
  | reference | key | operator | punct => exact List.cons_ne_nil _ _

/-- There are no spaces in a lexeme. -/
theorem filter_eq (h : Lexeme before after lexeme t) : lexeme.filter (· ≠ ' ') = lexeme := by
  refine List.filter_eq_self.2 fun c hc => decide_eq_true ?_
  have hname : isNameChar c = true → c ≠ ' ' := ne_space_of_isNameChar
  cases h with
  | number h =>
    rintro rfl
    exact nomatch h.all ' ' hc
  -- All three are runs of letters and sigils, a sigil in front included.
  | reference h | key h | function h => exact hname (h.all c hc)
  | operator op =>
    obtain rfl := List.mem_singleton.1 hc
    exact (kinds_of_ofSymbol? (ofSymbol?_eq_some_iff.2 (.inl ⟨op, rfl, rfl⟩))).1
  | punct mark =>
    obtain rfl := List.mem_singleton.1 hc
    exact (kinds_of_ofSymbol? (ofSymbol?_eq_some_iff.2 (.inr ⟨mark, rfl, rfl⟩))).1

/-- Tokens other than numbers are printed as their lexemes. -/
theorem text_eq (h : Lexeme before after lexeme t) (hnumber : ∀ x, t ≠ .number x) :
    t.text = String.ofList lexeme := by
  cases h with
  | number => exact absurd rfl (hnumber _)
  | reference | key => exact String.toList_injective (by simp [text])
  | function | operator | punct => rfl

end Lexeme

end

/-! ### Texts in lexemes -/

namespace Lexemes

variable {before cs : List Char} {pieces : List (List Char × Token)}

/-- A text without its spaces is its lexemes one after the other. -/
theorem flatten_eq (h : Lexemes before cs pieces) :
    (pieces.map (·.1)).flatten = cs.filter (· ≠ ' ') := by
  induction h with
  | nil => rfl
  | space _ ih => rw [ih, List.filter_cons_of_neg (by simp)]
  | lexeme hlexeme _ ih =>
    rw [List.map_cons, List.flatten_cons, ih, List.filter_append, hlexeme.filter_eq]

/-- Each lexeme takes at least one character that is no space. -/
theorem length_le (h : Lexemes before cs pieces) :
    pieces.length ≤ (cs.filter (· ≠ ' ')).length := by
  induction h with
  | nil => exact Nat.zero_le _
  | space _ ih => rwa [List.filter_cons_of_neg (by simp)]
  | lexeme hlexeme _ ih =>
    -- The characters of a lexeme outlast the filter, and there is one at least.
    have hpos := List.length_pos_of_ne_nil hlexeme.ne_nil
    rw [List.filter_append, hlexeme.filter_eq, List.length_cons, List.length_append]
    omega

/-- Every lexeme stands in the text, between the lexemes before it and those behind it. -/
theorem exists_of_append {earlier later : List (List Char × Token)} {lexeme : List Char} {t : Token}
    (h : Lexemes before cs (earlier ++ (lexeme, t) :: later)) :
    ∃ front back, cs = front ++ lexeme ++ back ∧ Lexeme (before ++ front) back lexeme t ∧
      front.filter (· ≠ ' ') = (earlier.map (·.1)).flatten ∧
      back.filter (· ≠ ' ') = (later.map (·.1)).flatten := by
  -- The lexeme asked for is the first one, or it is among those behind the first.
  generalize hpieces : earlier ++ (lexeme, t) :: later = pieces at h
  induction h generalizing earlier with
  | nil => exact absurd hpieces (by simp)
  | space _ ih =>
    obtain ⟨front, back, rfl, hlexeme, hfront, hback⟩ := ih hpieces
    refine ⟨' ' :: front, back, rfl, by simpa using hlexeme, ?_, hback⟩
    rw [List.filter_cons_of_neg (by simp), hfront]
  | @lexeme before first rest u pieces hfirst h ih =>
    cases earlier with
    | nil =>
      obtain ⟨hhead, rfl⟩ := List.cons.inj hpieces
      obtain ⟨rfl, rfl⟩ := Prod.mk.inj hhead
      exact ⟨[], rest, rfl, by simpa using hfirst, rfl, h.flatten_eq.symm⟩
    | cons piece earlier =>
      obtain ⟨rfl, hmore⟩ := List.cons.inj hpieces
      obtain ⟨front, back, rfl, hlexeme, hfront, hback⟩ := ih hmore
      refine ⟨first ++ front, back, by simp, by simpa using hlexeme, ?_, hback⟩
      rw [List.filter_append, hfirst.filter_eq, hfront, List.map_cons, List.flatten_cons]

end Lexemes

/-! ### Scanning -/

section

variable {strict : Bool} {position : Nat} {before cs : List Char}

/-- What is scanned are the lexemes of a text. With strict identifiers no name has a sigil inside. -/
theorem lexemes_of_scanFrom {ts : List Token} (h : scanFrom strict position cs = .ok ts)
    (hboundary : Boundary before.getLast? cs) :
    (∃ pieces, Lexemes before cs pieces ∧ pieces.map (·.2) = ts) ∧
      (strict = true → ∀ t ∈ ts, t.hasSigil = false) := by
  -- The induction is on the lexemes. `Boundary` goes with it: no run reaches from what was scanned
  -- into the rest, so a run that is as long as the rest allows cannot be made longer to the left.
  induction cs using lexeme_induct generalizing position before ts with
  | nil =>
    rw [scanFrom_nil] at h
    obtain rfl := Except.ok.inj h
    exact ⟨⟨[], .nil, rfl⟩, fun _ => nofun⟩
  | space cs ih =>
    rw [scanFrom_space] at h
    have hspace : Boundary (before ++ [' ']).getLast? cs := by
      rw [List.getLast?_concat]
      exact boundary_of_not_run rfl rfl cs
    obtain ⟨⟨pieces, hpieces, hts⟩, hsigils⟩ := ih h hspace
    exact ⟨⟨pieces, .space hpieces, hts⟩, hsigils⟩
  -- To the left the run is as long as possible by the boundary, to the right by its scanning.
  | number c run rest hc hrun hrest ih =>
    have hlongest : LongestRun Numeral.isRunChar before (c :: run) rest :=
      .of_cons (isRunChar_of_isDigit hc) hrun ((hboundary c rfl).1 (isRunChar_of_isDigit hc)) hrest
    rw [scanFrom_number strict position hc hrun hrest] at h
    obtain ⟨more, hmore, rfl⟩ := exists_of_map_eq_ok h
    obtain ⟨⟨pieces, hpieces, rfl⟩, hsigils⟩ := ih hmore (hlongest.boundary (.inl rfl))
    refine ⟨⟨_, .lexeme (.number hlongest ?_) hpieces, rfl⟩, fun hs =>
      List.forall_mem_cons.2 ⟨rfl, hsigils hs⟩⟩
    exact fun d hd => Option.some.inj hd ▸ hc
  | name c run rest hc hrun hrest ih =>
    have hlongest : LongestRun isNameChar before (c :: run) rest :=
      .of_cons hc hrun ((hboundary c rfl).2 hc) hrest
    by_cases hletters : strict = true → ∀ d ∈ run, d.isUpper = true
    · rw [scanFrom_name strict position hc hrun hrest hletters] at h
      obtain ⟨more, hmore, rfl⟩ := exists_of_map_eq_ok h
      obtain ⟨⟨pieces, hpieces, rfl⟩, hsigils⟩ := ih hmore (hlongest.boundary (.inr rfl))
      exact ⟨⟨_, .lexeme (lexeme_ofNameRun hlongest) hpieces, rfl⟩, fun hs =>
        List.forall_mem_cons.2 ⟨hasSigil_ofNameRun (hletters hs), hsigils hs⟩⟩
    · -- Strict identifiers do not let the run through.
      obtain ⟨sigil, k, herror⟩ := exists_scanFrom_name_error strict hc hrun hletters
      rw [herror] at h
      exact nomatch h
  -- A symbol belongs to no run, so it is a boundary itself.
  | symbol c t cs hsymbol ih =>
    rw [scanFrom_symbol strict position cs hsymbol] at h
    obtain ⟨more, hmore, rfl⟩ := exists_of_map_eq_ok h
    obtain ⟨-, hrun, hname⟩ := kinds_of_ofSymbol? hsymbol
    have hbehind : Boundary (before ++ [c]).getLast? cs := by
      rw [List.getLast?_concat]
      exact boundary_of_not_run hrun hname cs
    obtain ⟨⟨pieces, hpieces, rfl⟩, hsigils⟩ := ih hmore hbehind
    rcases ofSymbol?_eq_some_iff.1 hsymbol with ⟨op, rfl, rfl⟩ | ⟨mark, rfl, rfl⟩
    · exact ⟨⟨_, .lexeme (.operator op) hpieces, rfl⟩, fun hs =>
        List.forall_mem_cons.2 ⟨rfl, hsigils hs⟩⟩
    · exact ⟨⟨_, .lexeme (.punct mark) hpieces, rfl⟩, fun hs =>
        List.forall_mem_cons.2 ⟨rfl, hsigils hs⟩⟩
  | other c cs hspace hdigit hname hsymbol =>
    rw [scanFrom_other strict position cs hspace hdigit hname hsymbol] at h
    exact nomatch h

/-- A name without sigils inside it has nothing but letters behind its first character. -/
theorem isUpper_of_hasSigil_ofNameRun {c : Char} {run : List Char}
    (hrun : ∀ d ∈ run, isNameChar d = true) (h : (ofNameRun c run).hasSigil = false) :
    ∀ d ∈ run, d.isUpper = true := by
  refine (any_isSigil_eq_false_iff hrun).1 ?_
  rcases ofNameRun_cases c run with heq | heq | ⟨-, heq⟩
  · rwa [heq, hasSigil, String.toList_ofList] at h
  · rwa [heq, hasSigil, String.toList_ofList] at h
  · -- A function name counts with its first letter, the others without their sigil.
    rw [heq, hasSigil, String.toList_ofList, List.any_cons, Bool.or_eq_false_iff] at h
    exact h.2

/-- A longest run of letters and sigils is scanned as one name. -/
theorem scanFrom_of_longestRun {after : List Char} {c : Char} {run : List Char}
    (h : LongestRun isNameChar before (c :: run) after)
    (hsigil : strict = true → (ofNameRun c run).hasSigil = false) :
    scanFrom strict position (c :: run ++ after) =
      (ofNameRun c run :: ·) <$> scanFrom strict (position + (c :: run).length) after := by
  obtain ⟨hc, hrun⟩ := List.forall_mem_cons.1 h.all
  rw [List.cons_append, scanFrom_name strict position hc hrun h.right fun hs =>
    isUpper_of_hasSigil_ofNameRun hrun (hsigil hs), List.length_cons, Nat.add_right_comm,
    Nat.add_assoc]

/-- A lexeme is scanned as the token it stands for. -/
theorem scanFrom_of_lexeme {after lexeme : List Char} {t : Token}
    (h : Lexeme before after lexeme t) (hsigil : strict = true → t.hasSigil = false) :
    scanFrom strict position (lexeme ++ after) =
      (t :: ·) <$> scanFrom strict (position + lexeme.length) after := by
  cases h with
  | number h hfirst =>
    obtain ⟨c, run, rfl⟩ := List.exists_cons_of_ne_nil h.ne_nil
    rw [List.cons_append, scanFrom_number strict position (hfirst c rfl)
      (List.forall_mem_cons.1 h.all).2 h.right, List.length_cons, Nat.add_right_comm,
      Nat.add_assoc]
  | reference h => exact scanFrom_of_longestRun h hsigil
  | key h => exact scanFrom_of_longestRun h hsigil
  -- Without a sigil in front the run is the whole name.
  | function h hfirst =>
    obtain ⟨c, run, rfl⟩ := List.exists_cons_of_ne_nil h.ne_nil
    rw [← ofNameRun_of_not_isSigil (hfirst c rfl)] at hsigil ⊢
    exact scanFrom_of_longestRun h hsigil
  | operator op =>
    exact scanFrom_symbol strict position after (ofSymbol?_eq_some_iff.2 (.inl ⟨op, rfl, rfl⟩))
  | punct mark =>
    exact scanFrom_symbol strict position after (ofSymbol?_eq_some_iff.2 (.inr ⟨mark, rfl, rfl⟩))

/-- The lexemes of a text are what is scanned. -/
theorem scanFrom_of_lexemes {pieces : List (List Char × Token)} (h : Lexemes before cs pieces)
    (hsigils : strict = true → ∀ t ∈ pieces.map (·.2), t.hasSigil = false) :
    scanFrom strict position cs = .ok (pieces.map (·.2)) := by
  induction h generalizing position with
  | nil => exact scanFrom_nil strict position
  | space _ ih => rw [scanFrom_space, ih hsigils]
  | lexeme hlexeme _ ih =>
    rw [scanFrom_of_lexeme hlexeme fun hs => hsigils hs _ List.mem_cons_self,
      ih fun hs t ht => hsigils hs t (List.mem_cons_of_mem _ ht)]
    rfl

/-- A round of the scanner ends it with an error, or it takes at least one character and goes on
with the rest of the text. -/
theorem scanFrom_round (strict : Bool) (position : Nat) (h : cs ≠ []) :
    (∃ e, scanFrom strict position cs = .error e) ∨
      ∃ taken rest token?, cs = taken ++ rest ∧ taken ≠ [] ∧
        scanFrom strict position cs =
          (Option.toList token? ++ ·) <$> scanFrom strict (position + taken.length) rest := by
  -- The cases are those of the lexemes; what follows the first one does not matter.
  induction cs using lexeme_induct with
  | nil => exact absurd rfl h
  -- A space takes a round of its own and adds no token.
  | space cs =>
    refine .inr ⟨[' '], cs, none, rfl, List.cons_ne_nil _ _, ?_⟩
    rw [scanFrom_space]
    exact (id_map _).symm
  | number c run rest hc hrun hrest =>
    have hlongest : LongestRun Numeral.isRunChar [] (c :: run) rest :=
      .of_cons (isRunChar_of_isDigit hc) hrun nofun hrest
    have hfirst : ∀ d ∈ (c :: run).head?, d.isDigit = true := fun d hd => Option.some.inj hd ▸ hc
    exact .inr ⟨c :: run, rest, some _, rfl, hlongest.ne_nil,
      scanFrom_of_lexeme (.number hlongest hfirst) fun _ => rfl⟩
  | name c run rest hc hrun hrest =>
    have hlongest : LongestRun isNameChar [] (c :: run) rest := .of_cons hc hrun nofun hrest
    by_cases hletters : strict = true → ∀ d ∈ run, d.isUpper = true
    · exact .inr ⟨c :: run, rest, some _, rfl, hlongest.ne_nil,
        scanFrom_of_longestRun hlongest fun hs => hasSigil_ofNameRun (hletters hs)⟩
    · -- With a sigil inside the name strict identifiers end the scan.
      obtain ⟨sigil, k, herror⟩ := exists_scanFrom_name_error strict hc hrun hletters
      exact .inl ⟨_, herror position rest⟩
  | symbol c t cs hsymbol =>
    exact .inr ⟨[c], cs, some t, rfl, List.cons_ne_nil _ _,
      scanFrom_symbol strict position cs hsymbol⟩
  | other c cs hspace hdigit hname hsymbol =>
    exact .inl ⟨_, scanFrom_other strict position cs hspace hdigit hname hsymbol⟩

end

/-! ### Whole texts -/

/-- The tokens of a text are those of its lexemes. With strict identifiers no name may have a sigil
inside. -/
theorem scan_eq_ok_iff {strictness : Strictness} {text : String} {tokens : List Token} :
    scan strictness text = .ok tokens ↔
      (∃ pieces, Lexemes [] text.toList pieces ∧ pieces.map (·.2) = tokens) ∧
        (strictness.identifiers = true → ∀ t ∈ tokens, t.hasSigil = false) := by
  constructor
  · -- Nothing stands in front of the whole text.
    exact fun h => lexemes_of_scanFrom h fun _ _ => ⟨fun _ => nofun, fun _ => nofun⟩
  · rintro ⟨⟨pieces, hpieces, rfl⟩, hsigils⟩
    exact scanFrom_of_lexemes hpieces hsigils

/-- The scanner makes progress until it fails or the text is used up. If it does not fail, the text
without its spaces is made up of one lexeme for each token, in order, and each lexeme is as long as
the text allows. -/
theorem scan_lossless (strictness : Strictness) (text : String) :
    (∀ position cs, cs ≠ [] →
      (∃ e, scanFrom strictness.identifiers position cs = .error e) ∨
        ∃ taken rest token?, cs = taken ++ rest ∧ taken ≠ [] ∧
          scanFrom strictness.identifiers position cs = (Option.toList token? ++ ·) <$>
            scanFrom strictness.identifiers (position + taken.length) rest) ∧
    ∀ tokens, scan strictness text = .ok tokens →
      tokens.length ≤ (text.toList.filter (· ≠ ' ')).length ∧
      ∃ pieces : List (List Char × Token), pieces.map (·.2) = tokens ∧
        (pieces.map (·.1)).flatten = text.toList.filter (· ≠ ' ') ∧
        ∀ earlier lexeme t later, pieces = earlier ++ (lexeme, t) :: later →
          lexeme ≠ [] ∧ ((∀ x, t ≠ number x) → t.text = String.ofList lexeme) ∧
          ∃ before after, text.toList = before ++ lexeme ++ after ∧ Lexeme before after lexeme t ∧
            before.filter (· ≠ ' ') = (earlier.map (·.1)).flatten ∧
            after.filter (· ≠ ' ') = (later.map (·.1)).flatten := by
  refine ⟨fun position cs h => scanFrom_round _ position h, fun tokens htokens => ?_⟩
  -- Everything about the tokens is read off the lexemes.
  obtain ⟨⟨pieces, hpieces, rfl⟩, -⟩ := scan_eq_ok_iff.1 htokens
  refine ⟨?_, pieces, rfl, hpieces.flatten_eq, ?_⟩
  · rw [List.length_map]
    exact hpieces.length_le
  · rintro earlier lexeme t later rfl
    obtain ⟨before, after, htext, hlexeme, hbefore, hafter⟩ := hpieces.exists_of_append
    exact ⟨hlexeme.ne_nil, hlexeme.text_eq, before, after, htext, hlexeme, hbefore, hafter⟩

/-- Two sigils in a name, a number that its run goes on behind, and a space. -/
theorem scan_lossless_touching :
    let text := "$A#PI2..5.^ ("
    let tokens := [reference "A#PI", number 2, operator .pow, punct .leftParen]
    scan .lenient text = .ok tokens ∧ tokens.length ≤ 12 ∧
      ∃ pieces : List (List Char × Token), pieces.map (·.2) = tokens ∧
        (pieces.map (·.1)).flatten = "$A#PI2..5.^(".toList := by
  intro text tokens
  obtain ⟨-, hscan⟩ := scan_lossless .lenient text
  have htokens : scan .lenient text = .ok tokens := by decide +kernel
  have hfilter : text.toList.filter (· ≠ ' ') = "$A#PI2..5.^(".toList := by decide +kernel
  obtain ⟨hlength, pieces, hpieces, hflatten, -⟩ := hscan tokens htokens
  rw [hfilter] at hlength hflatten
  exact ⟨htokens, hlength, pieces, hpieces, hflatten⟩

end Calculator.Token
