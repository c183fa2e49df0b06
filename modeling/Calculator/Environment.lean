import Calculator.Value

/-!
# Environments

`Bindings` gives values to names. The entries are kept in the order of their names, without
repetition, so a set of bindings has one representation: two of them that answer every look-up
alike are equal. An `Environment` remembers the bindings it started with, and `reset` goes back to
them.

## Key results

* `Bindings.get?_insert`      a write is seen under its own name and changes no other
* `Bindings.mem_entries_iff`  an entry is what the look-up of its name finds
* `Bindings.ext_get?`         bindings with the same look-ups are equal
-/

namespace Calculator

/-- Values given to names, in the order of the names. -/
structure Bindings where
  entries : List (String × Value)
  sorted : entries.Pairwise fun a b => a.1 < b.1
  deriving DecidableEq

namespace Bindings

def empty : Bindings := ⟨[], .nil⟩

def get? (b : Bindings) (name : String) : Option Value := b.entries.lookup name

def contains (b : Bindings) (name : String) : Bool := (b.get? name).isSome

def size (b : Bindings) : Nat := b.entries.length

/-- The bound names in order. -/
def names (b : Bindings) : List String := b.entries.map (·.1)

/-- Entries with a name's value replaced, or put in its place in the order. -/
def insertEntry (name : String) (value : Value) : List (String × Value) → List (String × Value)
  | [] => [(name, value)]
  | entry :: rest =>
    if name < entry.1 then (name, value) :: entry :: rest
    else if name = entry.1 then (name, value) :: rest
    else entry :: insertEntry name value rest

/-- Writing an entry adds nothing but that entry. -/
theorem mem_insertEntry {name : String} {value : Value} {entry : String × Value}
    {entries : List (String × Value)} (h : entry ∈ insertEntry name value entries) :
    entry = (name, value) ∨ entry ∈ entries := by
  induction entries with
  | nil => simpa [insertEntry] using h
  | cons head rest ih => grind [insertEntry]

/-- Writing an entry keeps the order of names. -/
theorem pairwise_insertEntry {name : String} {value : Value} {entries : List (String × Value)}
    (h : entries.Pairwise fun a b => a.1 < b.1) :
    (insertEntry name value entries).Pairwise fun a b => a.1 < b.1 := by
  induction entries with
  | nil => simp [insertEntry]
  | cons head rest ih =>
    obtain ⟨below, ordered⟩ := List.pairwise_cons.1 h
    simp only [insertEntry]
    split
    · -- The new name comes before all others.
      rename_i hlt
      refine List.pairwise_cons.2 ⟨fun entry hmem => ?_, h⟩
      rcases List.mem_cons.1 hmem with rfl | hmem
      · exact hlt
      · exact String.lt_trans hlt (below entry hmem)
    · split
      · -- The name is there already, and only its value changes.
        rename_i heq
        exact List.pairwise_cons.2 ⟨fun entry hmem => heq ▸ below entry hmem, ordered⟩
      · -- The name belongs further back, where it may come first among the rest.
        rename_i hle hne
        refine List.pairwise_cons.2 ⟨fun entry hmem => ?_, ih ordered⟩
        rcases mem_insertEntry hmem with rfl | hmem
        · exact Decidable.byContradiction fun hnlt => hne
            (String.le_antisymm (String.not_lt.1 hnlt) (String.not_lt.1 hle))
        · exact below entry hmem

/-- Bind a name to a value, replacing what it was bound to. -/
def insert (b : Bindings) (name : String) (value : Value) : Bindings :=
  ⟨insertEntry name value b.entries, pairwise_insertEntry b.sorted⟩

/-- The bindings of a list of pairs; a later pair replaces an earlier one of the same name. -/
def ofList (pairs : List (String × Value)) : Bindings :=
  pairs.foldl (fun b (name, value) => b.insert name value) empty

/-- Whether two sets of bindings give the same names the same values, as programs compare them. -/
def same (a b : Bindings) : Bool :=
  a.entries.isEqv b.entries fun x y => x.1 == y.1 && x.2.same y.2

/-! ### Look-up -/

@[simp] theorem get?_empty (name : String) : empty.get? name = none := rfl

/-- A write is seen under its own name and changes no other. -/
theorem get?_insert (b : Bindings) (name : String) (value : Value) (other : String) :
    (b.insert name value).get? other = if other = name then some value else b.get? other := by
  obtain ⟨entries, sorted⟩ := b
  simp only [insert, get?]
  -- The induction follows the search for the place of the name.
  induction entries with
  | nil => simp [insertEntry, List.lookup_cons]; grind
  | cons head rest ih =>
    obtain ⟨key, bound⟩ := head
    have := ih (List.pairwise_cons.1 sorted).2
    simp only [insertEntry]
    split
    · simp only [List.lookup_cons]; grind
    · split
      · simp only [List.lookup_cons]; grind
      · simp only [List.lookup_cons]; grind

/-- An entry is what the look-up of its name finds. -/
theorem mem_entries_iff {b : Bindings} {name : String} {value : Value} :
    (name, value) ∈ b.entries ↔ b.get? name = some value := by
  obtain ⟨entries, sorted⟩ := b
  simp only [get?]
  induction entries with
  | nil => simp
  | cons head rest ih =>
    obtain ⟨key, bound⟩ := head
    obtain ⟨below, ordered⟩ := List.pairwise_cons.1 sorted
    -- Names do not repeat, so the rest says nothing about the first one.
    have absent : ∀ w, (key, w) ∉ rest := fun w hmem =>
      String.lt_irrefl key (below (key, w) hmem)
    have := ih ordered
    simp only [List.lookup_cons, List.mem_cons]
    split
    · rename_i heq
      obtain rfl := eq_of_beq heq
      constructor
      · rintro (h | hmem)
        · exact congrArg (some ·.2) h.symm
        · exact absurd hmem (absent value)
      · intro h
        exact .inl (Prod.ext rfl (Option.some.inj h).symm)
    · rename_i hne
      rw [← this]
      constructor
      · rintro (h | hmem)
        · obtain ⟨rfl, -⟩ := Prod.mk.inj h
          simp at hne
        · exact hmem
      · exact .inr

/-- Bindings with the same look-ups are equal. -/
theorem ext_get? {a b : Bindings} (h : ∀ name, a.get? name = b.get? name) : a = b := by
  have same_entries : ∀ entry, entry ∈ a.entries ↔ entry ∈ b.entries := fun entry => by
    rw [mem_entries_iff, mem_entries_iff, h]
  obtain ⟨xs, hxs⟩ := a
  obtain ⟨ys, hys⟩ := b
  -- Entries in increasing order do not repeat.
  have nodup : ∀ {zs : List (String × Value)}, (zs.Pairwise fun a b => a.1 < b.1) → zs.Nodup :=
    fun hzs => List.Pairwise.imp (fun {x y} (hlt : x.1 < y.1) (heq : x = y) =>
      String.lt_irrefl y.1 (heq ▸ hlt)) hzs
  have perm : xs.Perm ys := (List.perm_ext_iff_of_nodup (nodup hxs) (nodup hys)).2 same_entries
  -- A set has only one increasing order.
  have : xs = ys := perm.eq_of_pairwise
    (fun a b _ _ hab hba => absurd (String.lt_trans hab hba) (String.lt_irrefl a.1)) hxs hys
  subst this
  rfl

/-! ### Keys -/

/-- Whether all bound values are numbers and truth values. -/
def KeyFree (b : Bindings) : Prop := ∀ name value, b.get? name = some value → value.isKey = false

theorem keyFree_empty : empty.KeyFree := fun _ _ h => nomatch h

/-- A write of anything but a key leaves no key behind. -/
theorem KeyFree.insert {b : Bindings} (h : b.KeyFree) (name : String) {value : Value}
    (hvalue : value.isKey = false) : (b.insert name value).KeyFree := by
  intro other v hget
  rw [get?_insert] at hget
  split at hget
  · rw [← Option.some.inj hget, hvalue]
  · exact h other v hget

end Bindings

/-- Bindings together with those to go back to. -/
structure Environment where
  bindings : Bindings
  defaults : Bindings
  deriving DecidableEq

namespace Environment

/-- An environment that starts with the given bindings. -/
def ofDefaults (defaults : Bindings) : Environment := ⟨defaults, defaults⟩

/-- The constants of an ordinary environment. -/
def constants : Bindings :=
  .ofList [("PI", .number 3.141592653589793), ("E", .number 2.718281828459045)]

/-- An environment that starts with `PI` and `E`. -/
def standard : Environment := ofDefaults constants

def get? (env : Environment) (name : String) : Option Value := env.bindings.get? name

def set (env : Environment) (name : String) (value : Value) : Environment :=
  { env with bindings := env.bindings.insert name value }

/-- Go back to the bindings the environment started with. -/
def reset (env : Environment) : Environment := { env with bindings := env.defaults }

/-- Whether two environments agree in their bindings and their defaults. -/
def same (a b : Environment) : Bool := a.bindings.same b.bindings && a.defaults.same b.defaults

instance : Inhabited Environment := ⟨standard⟩

/-- A write is seen under its own name and changes no other. -/
theorem get?_set (env : Environment) (name : String) (value : Value) (other : String) :
    (env.set name value).get? other = if other = name then some value else env.get? other :=
  Bindings.get?_insert env.bindings name value other

end Environment

end Calculator
