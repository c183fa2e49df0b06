import Calculator.Proofs.OneLine

/-!
# The listing of an environment

The column of names is as wide as the longest name has bytes, but names are filled up by counting
characters. A character takes at least one byte. So every name fits into the column, whatever its
characters are, and the values stand below each other behind it. Cutting the lines at the column
gives the values back, and the names as far as they do not end in spaces themselves.

## Key results

- `Environment.utf8ByteSize_le_nameWidth`, `Environment.exists_utf8ByteSize_eq_nameWidth`: the
  width of the column
- `Environment.shownAt_listingLine`: a binding on its line
- `Environment.listing_aligned`: the lines of a listing
-/

namespace Calculator

namespace Text

/-- A text has at most as many characters as bytes. -/
theorem length_le_utf8ByteSize (text : String) : text.length ≤ text.utf8ByteSize := by
  -- The induction is over the characters, which have one byte at least.
  have hchars : ∀ cs : List Char, cs.length ≤ String.utf8Len cs := fun cs => by
    induction cs with
    | nil => simp
    | cons c cs ih =>
      have hpos := c.utf8Size_pos
      simp only [List.length_cons, String.utf8Len_cons]
      omega
  rw [← String.ofList_toList (s := text), String.utf8ByteSize_ofList, String.length_ofList]
  exact hchars text.toList

/-! ### Rows -/

/-- The rows of a text, which line feeds stand between. A text without characters has none. -/
def rows (text : String) : List String :=
  if text = "" then [] else (text.toList.splitOn '\n').map String.ofList

/-- Rows that are not empty can be cut apart again. -/
theorem rows_intercalate {lines : List String}
    (h : ∀ line ∈ lines, line ≠ "" ∧ '\n' ∉ line.toList) : rows ("\n".intercalate lines) = lines := by
  -- Splitting gives one piece even for the empty text, so no rows at all are a case of their own.
  by_cases hnil : lines = []
  · subst hnil
    rfl
  · -- A text of several lines has line feeds, and a single line is not empty.
    have hne : "\n".intercalate lines ≠ "" := by
      obtain ⟨line, rest, rfl⟩ := List.exists_cons_of_ne_nil hnil
      cases rest with
      | nil => simpa using (h line (by simp)).1
      | cons next rest => simp [String.intercalate_cons_cons]
    have hbreak : ∀ cs ∈ lines.map String.toList, '\n' ∉ cs := by
      simpa using fun line hline => (h line hline).2
    rw [rows, if_neg hne, String.toList_intercalate]
    show ((['\n'].intercalate (lines.map String.toList)).splitOn '\n').map String.ofList = lines
    rw [List.splitOn_intercalate '\n' hbreak (by simpa using hnil), List.map_map]
    simp

end Text

/-! ### Texts of values -/

/-- A line feed in the text of a value is in a key. -/
theorem Value.newline_notMem_text {value : Value}
    (h : ∀ key, value = .key key → '\n' ∉ key.toList) : '\n' ∉ value.text.toList := by
  cases value with
  -- The texts of numbers are on one line.
  | number x =>
    intro hmem
    exact absurd (oneLine_plainNumber x _ hmem) (by decide)
  | bool b => cases b <;> simp [Value.text, Json.bool]
  | key name => simpa [Value.text] using h name rfl

namespace Environment

/-! ### The column of names -/

variable {env : Environment} {name : String} {value : Value} {column : Nat}

/-- The column is as wide as the longest name has bytes. -/
theorem max?_utf8ByteSize (h : env.bindings.entries ≠ []) :
    (env.bindings.names.map String.utf8ByteSize).max? = some env.nameWidth := by
  have hne : env.bindings.names.map String.utf8ByteSize ≠ [] := by simpa [Bindings.names] using h
  obtain ⟨width, hwidth⟩ := Option.ne_none_iff_exists'.1 (mt List.max?_eq_none_iff.1 hne)
  rw [nameWidth, List.foldl_max, hwidth, Option.getD_some, Nat.zero_max]

/-- Every name has as many bytes as the column is wide, or fewer. -/
theorem utf8ByteSize_le_nameWidth (h : (name, value) ∈ env.bindings.entries) :
    name.utf8ByteSize ≤ env.nameWidth := by
  have hmem : name.utf8ByteSize ∈ env.bindings.names.map String.utf8ByteSize :=
    List.mem_map_of_mem (List.mem_map.2 ⟨(name, value), h, rfl⟩)
  exact (List.max?_eq_some_iff.1 (max?_utf8ByteSize (List.ne_nil_of_mem h))).2 _ hmem

/-- Some name has as many bytes as the column is wide. -/
theorem exists_utf8ByteSize_eq_nameWidth (h : env.bindings.entries ≠ []) :
    ∃ binding ∈ env.bindings.entries, binding.1.utf8ByteSize = env.nameWidth := by
  have hmem := (List.max?_eq_some_iff.1 (max?_utf8ByteSize h)).1
  simpa [Bindings.names] using hmem

/-! ### Lines -/

/-- How a binding stands on its line: the name with nothing but spaces behind it up to the column,
there the equals sign, and then the text of the value. Cut at the column, the line gives the value
back, and the name if it does not end in a space. -/
structure ShownAt (column : Nat) (name : String) (value : Value) (line : String) : Prop where
  name_first : ∃ spaces, line.toList.take column = name.toList ++ List.replicate spaces ' '
  length_eq : (line.toList.take column).length = column
  sign_next : line.toList.drop column = " = ".toList ++ value.text.toList
  value_cut : line.toList.drop (column + 3) = value.text.toList
  name_cut : name.toList.getLast? ≠ some ' ' →
    (line.toList.take column).rdropWhile (· = ' ') = name.toList

/-- Spaces that fill up a text can be taken away again, if it does not end in a space itself. -/
theorem rdropWhile_append_replicate {cs : List Char} (h : cs.getLast? ≠ some ' ') (n : Nat) :
    (cs ++ List.replicate n ' ').rdropWhile (· = ' ') = cs := by
  induction n with
  | zero =>
    rw [List.replicate_zero, List.append_nil, List.rdropWhile_eq_self_iff]
    intro hne hlast
    exact h (by rw [List.getLast?_eq_getLast_of_ne_nil hne, of_decide_eq_true hlast])
  | succ n ih =>
    rw [List.replicate_succ', ← List.append_assoc, List.rdropWhile_concat_pos _ _ _ (by simp), ih]

/-- A name that fits into the column stands on its line with its value. -/
theorem shownAt_listingLine (h : name.length ≤ column) (value : Value) :
    ShownAt column name value (listingLine column name value) := by
  -- The line is the filled name and the rest; that the name fits makes the first part end at the
  -- column, so that cutting there takes the parts apart.
  let filled := name.toList ++ List.replicate (column - name.length) ' '
  have hline : (listingLine column name value).toList =
      filled ++ (" = ".toList ++ value.text.toList) := by simp [listingLine, filled]
  have hlength : filled.length = column := by
    rw [List.length_append, List.length_replicate, String.length_toList]
    omega
  have htake : (listingLine column name value).toList.take column = filled := by
    rw [hline, List.take_left' hlength]
  have hdrop : (listingLine column name value).toList.drop column =
      " = ".toList ++ value.text.toList := by
    rw [hline, List.drop_left' hlength]
  exact {
    name_first := ⟨_, htake⟩
    length_eq := by rw [htake, hlength]
    sign_next := hdrop
    value_cut := by rw [← List.drop_drop, hdrop]; rfl
    name_cut := fun hlast => by rw [htake]; exact rdropWhile_append_replicate hlast _ }

/-- A line of the listing has no line feed that is in neither the name nor the value. -/
theorem newline_notMem_listingLine (hname : '\n' ∉ name.toList)
    (hvalue : '\n' ∉ value.text.toList) :
    '\n' ∉ (listingLine column name value).toList := by
  simp [listingLine, hname, hvalue]

/-- Without line feeds in names and values each binding has a row. -/
theorem rows_listing (h : ∀ name value, env.get? name = some value →
      '\n' ∉ name.toList ∧ '\n' ∉ value.text.toList) :
    Text.rows env.listing = env.bindings.entries.map fun binding =>
      listingLine env.nameWidth binding.1 binding.2 := by
  refine Text.rows_intercalate fun line hline => ?_
  obtain ⟨binding, hmem, rfl⟩ := List.mem_map.1 hline
  obtain ⟨hname, hvalue⟩ := h binding.1 binding.2 (Bindings.mem_entries_iff.1 hmem)
  -- The equals sign keeps every line from being empty.
  have hsign : listingLine env.nameWidth binding.1 binding.2 ≠ "" := by simp [listingLine]
  exact ⟨hsign, newline_notMem_listingLine hname hvalue⟩

/-- If there are no line feeds in names and keys, the listing of an environment has a row for each
binding, in the order of names. The names stand in a column that is as wide as the longest of them
has bytes, and the values behind it. -/
theorem listing_aligned (h : ∀ name value, env.get? name = some value →
      '\n' ∉ name.toList ∧ ∀ key, value = .key key → '\n' ∉ key.toList) :
    (∀ name value, (name, value) ∈ env.bindings.entries ↔ env.get? name = some value) ∧
      env.bindings.entries.Pairwise (·.1 < ·.1) ∧
      (∀ binding ∈ env.bindings.entries, binding.1.utf8ByteSize ≤ env.nameWidth) ∧
      (env.bindings.entries ≠ [] →
        ∃ binding ∈ env.bindings.entries, binding.1.utf8ByteSize = env.nameWidth) ∧
      List.Forall₂ (fun binding line => ShownAt env.nameWidth binding.1 binding.2 line)
        env.bindings.entries (Text.rows env.listing) := by
  refine ⟨fun name value => Bindings.mem_entries_iff, env.bindings.sorted,
    fun binding hmem => utf8ByteSize_le_nameWidth hmem, exists_utf8ByteSize_eq_nameWidth, ?_⟩
  -- The rows are the lines of the bindings, so only the single line is left.
  have hrows := rows_listing fun name value hget =>
    ⟨(h name value hget).1, Value.newline_notMem_text (h name value hget).2⟩
  rw [hrows, List.forall₂_map_right_iff, List.forall₂_same]
  intro binding hmem
  have hfits : binding.1.length ≤ env.nameWidth :=
    (Text.length_le_utf8ByteSize binding.1).trans (utf8ByteSize_le_nameWidth hmem)
  exact shownAt_listingLine hfits binding.2

/-- Names whose characters have one byte, two and three. The column has the six bytes of the last
name, which are two characters of it. -/
theorem listing_aligned_mixed_widths :
    let env := Environment.ofDefaults
      (.ofList [("日本", .bool true), ("é", .key "日"), ("AB", .bool false)])
    Text.rows env.listing = ["AB     = false", "é      = #日", "日本     = true"] ∧
      List.Forall₂ (fun binding line => ShownAt 6 binding.1 binding.2 line)
        [("AB", .bool false), ("é", .key "日"), ("日本", .bool true)] (Text.rows env.listing) := by
  intro env
  have hentries : env.bindings.entries =
      [("AB", .bool false), ("é", .key "日"), ("日本", .bool true)] := by decide +kernel
  have hwidth : env.nameWidth = 6 := by decide +kernel
  -- The only key is the value of the second name.
  have hbreak : ∀ name value, env.get? name = some value →
      '\n' ∉ name.toList ∧ ∀ key, value = .key key → '\n' ∉ key.toList := by
    intro name value hget
    have hmem := Bindings.mem_entries_iff.2 hget
    rw [hentries] at hmem
    simp only [List.mem_cons, Prod.mk.injEq, List.not_mem_nil, or_false] at hmem
    rcases hmem with ⟨rfl, rfl⟩ | ⟨rfl, rfl⟩ | ⟨rfl, rfl⟩ <;> simp
  obtain ⟨-, -, -, -, hshown⟩ := listing_aligned hbreak
  rw [hentries, hwidth] at hshown
  exact ⟨by decide +kernel, hshown⟩

end Environment

end Calculator
