/-!
# Lists that begin with a run

A list splits into its longest beginning with a property and the rest. `List.takeWhile` and
`List.dropWhile` compute the two parts; the proofs about stacks and texts know the parts and want
the results.

## Key results

- `takeWhile_append_of_head?`, `dropWhile_append_of_head?`: the two parts of a list in pieces
- `exists_span`: every list is made up of such pieces
- `length_le_of_append_eq`: no run at the start of a list is longer than the piece that ends it
-/

namespace List

variable {α : Type} {p : α → Bool} {above below : List α}

/-- A run that satisfies `p` before an element that does not is what `takeWhile` takes. -/
theorem takeWhile_append_of_head? (habove : ∀ a ∈ above, p a = true)
    (hbelow : ∀ a ∈ below.head?, p a = false) : (above ++ below).takeWhile p = above := by
  rw [takeWhile_append_of_pos habove]
  cases below with
  | nil => simp
  | cons a rest => simp [hbelow a rfl]

/-- A run that satisfies `p` before an element that does not is what `dropWhile` drops. -/
theorem dropWhile_append_of_head? (habove : ∀ a ∈ above, p a = true)
    (hbelow : ∀ a ∈ below.head?, p a = false) : (above ++ below).dropWhile p = below := by
  rw [dropWhile_append_of_pos habove]
  cases below with
  | nil => rfl
  | cons a rest => rw [dropWhile_cons, hbelow a rfl]; rfl

/-- Every list splits before the first element that does not satisfy `p`. -/
theorem exists_span (p : α → Bool) (l : List α) :
    ∃ above below, l = above ++ below ∧ (∀ a ∈ above, p a = true) ∧
      ∀ a ∈ below.head?, p a = false := by
  refine ⟨l.takeWhile p, l.dropWhile p, takeWhile_append_dropWhile.symm, ?_, ?_⟩
  · exact all_eq_true.1 all_takeWhile
  · intro a ha
    -- What is dropped begins with the first element that does not satisfy `p`.
    have hnot := head?_dropWhile_not p l
    rwa [ha] at hnot

/-- A run that satisfies `p` is no longer than what stands before an element that does not. -/
theorem length_le_of_append_eq {run rest : List α} (h : run ++ rest = above ++ below)
    (hrun : ∀ a ∈ run, p a = true) (hbelow : ∀ a ∈ below.head?, p a = false) :
    run.length ≤ above.length := by
  rcases append_eq_append_iff.1 h with ⟨more, rfl, -⟩ | ⟨more, rfl, rfl⟩
  · simp
  · cases more with
    | nil => simp
    | cons a more =>
      -- The element that ends `above` would lie in the run.
      have hfalse := hbelow a rfl
      exact nomatch (hrun a (by simp)).symm.trans hfalse

end List
