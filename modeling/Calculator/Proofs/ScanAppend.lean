import Calculator.Proofs.ScanVerdict

/-!
# Texts one behind the other

A text that is put behind another one is scanned as if it stood alone, if the two characters that
meet do not belong to one run: the tokens of the first text come before those of the second, and
the first error counts.

## Key results

- `scanFrom_append`: scanning a text in two parts
- `scanFrom_append_of_ok`: what is put behind a text that has tokens
-/

namespace Calculator.Token

/-! ### Boundaries -/

/-- Only the end of a text matters for the boundary behind it. -/
theorem Boundary.of_append (xs : List Char) {zs ys : List Char}
    (h : Boundary (xs ++ zs).getLast? ys) :
    Boundary zs.getLast? ys := by
  have hlast : ∀ p ∈ zs.getLast?, p ∈ (xs ++ zs).getLast? := fun p hp => by
    rw [List.getLast?_append, Option.mem_def.1 hp]
    rfl
  intro c hc
  obtain ⟨hrun, hname⟩ := h c hc
  exact ⟨fun hc p hp => hrun hc p (hlast p hp), fun hc p hp => hname hc p (hlast p hp)⟩

/-- A run that reaches the end of a text is not continued behind a boundary. -/
theorem Boundary.head?_append {kind : Char → Bool} {c : Char} {run rest ys : List Char}
    (h : Boundary (c :: (run ++ rest)).getLast? ys)
    (hkind : kind = Numeral.isRunChar ∨ kind = isNameChar)
    (hrun : ∀ d ∈ c :: run, kind d = true) (hrest : ∀ d ∈ rest.head?, kind d = false) :
    ∀ d ∈ (rest ++ ys).head?, kind d = false := by
  -- If something is left of the text, it ends the run; otherwise the boundary does.
  cases rest with
  | cons d rest => exact hrest
  | nil =>
    intro d hd
    rw [List.append_nil] at h
    have hlast := List.getLast?_eq_some_getLast (List.cons_ne_nil c run)
    have hlastKind := hrun _ (List.getLast_mem (List.cons_ne_nil c run))
    obtain ⟨hnumber, hname⟩ := h d hd
    refine Bool.eq_false_iff.2 fun hdKind => ?_
    -- The last character of the run would meet one of its own kind.
    rcases hkind with rfl | rfl
    · exact nomatch hlastKind.symm.trans (hnumber hdKind _ hlast)
    · exact nomatch hlastKind.symm.trans (hname hdKind _ hlast)

/-! ### Scanning -/

/-- A token comes before those of two texts, whatever comes of them. -/
theorem cons_map_bind_append (t : Token) (first second : Except ScanError (List Token)) :
    (t :: ·) <$> first.bind (fun before => (before ++ ·) <$> second) =
      Except.bind ((t :: ·) <$> first) fun before => (before ++ ·) <$> second := by
  match first, second with
  | .error _, _ => rfl
  | .ok _, .error _ => rfl
  | .ok _, .ok _ => rfl

/-- A text whose end and the start of what stands behind it do not belong to one run is scanned in
two parts. -/
theorem scanFrom_append (strict : Bool) (position : Nat) {xs ys : List Char}
    (h : Boundary xs.getLast? ys) :
    scanFrom strict position (xs ++ ys) =
      (scanFrom strict position xs).bind fun before =>
        (before ++ ·) <$> scanFrom strict (position + xs.length) ys := by
  have hcons : ∀ (k : Nat) (c : Char) (cs : List Char), k + (c :: cs).length = k + 1 + cs.length :=
    fun k _ cs => Nat.add_right_comm k cs.length 1
  -- Over the lexemes of the first text: the boundary keeps the last of them from growing.
  induction xs using lexeme_induct generalizing position with
  | nil =>
    rw [scanFrom_nil, List.nil_append, List.length_nil]
    exact (id_map _).symm
  | space cs ih =>
    rw [List.cons_append, scanFrom_space, scanFrom_space, ih _ (h.of_append [' ']), hcons]
  | number c run rest hc hrun hrest ih =>
    have hall : ∀ d ∈ c :: run, Numeral.isRunChar d = true :=
      List.forall_mem_cons.2 ⟨isRunChar_of_isDigit hc, hrun⟩
    rw [List.cons_append, List.append_assoc,
      scanFrom_number strict position hc hrun (h.head?_append (.inl rfl) hall hrest),
      scanFrom_number strict position hc hrun hrest, ih _ (h.of_append (c :: run)),
      hcons, List.length_append, ← Nat.add_assoc, cons_map_bind_append]
  | name c run rest hc hrun hrest ih =>
    have hall : ∀ d ∈ c :: run, isNameChar d = true := List.forall_mem_cons.2 ⟨hc, hrun⟩
    have hrest' := h.head?_append (.inr rfl) hall hrest
    -- A strict scan may stop inside the name.
    by_cases hletters : strict = true → ∀ d ∈ run, d.isUpper = true
    · rw [List.cons_append, List.append_assoc,
        scanFrom_name strict position hc hrun hrest' hletters,
        scanFrom_name strict position hc hrun hrest hletters, ih _ (h.of_append (c :: run)),
        hcons, List.length_append, ← Nat.add_assoc, cons_map_bind_append]
    · -- A sigil inside the name is rejected, whatever stands behind it.
      obtain ⟨sigil, k, herror⟩ := exists_scanFrom_name_error strict hc hrun hletters
      rw [List.cons_append, List.append_assoc, herror, herror]
      rfl
  | symbol c t cs hsymbol ih =>
    rw [List.cons_append, scanFrom_symbol strict position _ hsymbol,
      scanFrom_symbol strict position _ hsymbol, ih _ (h.of_append [c]),
      hcons, cons_map_bind_append]
  | other c cs hspace hdigit hname hsymbol =>
    rw [List.cons_append, scanFrom_other strict position _ hspace hdigit hname hsymbol,
      scanFrom_other strict position _ hspace hdigit hname hsymbol]
    rfl

/-- What is put behind a text that has tokens adds its own. -/
theorem scanFrom_append_of_ok {strict : Bool} {position : Nat} {xs ys : List Char} {ts : List Token}
    (h : scanFrom strict position xs = .ok ts) (hboundary : Boundary xs.getLast? ys) :
    scanFrom strict position (xs ++ ys) =
      (ts ++ ·) <$> scanFrom strict (position + xs.length) ys := by
  rw [scanFrom_append strict position hboundary, h]
  rfl

end Calculator.Token
