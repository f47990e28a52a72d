import Mathlib.Data.List.TakeWhile

/-!
# The run at the front of a list

A list is the run of elements in front that have a property, followed by a list that does not begin with such
an element. Both stacks of operators and texts are taken apart in this way.
-/

namespace Propositional

variable {α : Type} {p : α → Bool} {run rest : List α}

theorem takeWhile_run_append (hrun : ∀ x ∈ run, p x) (hrest : ∀ x ∈ rest.head?, p x = false) :
    (run ++ rest).takeWhile p = run := by
  rw [List.takeWhile_append_of_pos hrun]
  cases rest with
  | nil => simp
  | cons x rest => simp [hrest x rfl]

theorem dropWhile_run_append (hrun : ∀ x ∈ run, p x) (hrest : ∀ x ∈ rest.head?, p x = false) :
    (run ++ rest).dropWhile p = rest := by
  rw [List.dropWhile_append_of_pos hrun]
  cases rest with
  | nil => simp
  | cons x rest => simp [hrest x rfl]

theorem exists_run_append (p : α → Bool) (xs : List α) :
    ∃ run rest, xs = run ++ rest ∧ (∀ x ∈ run, p x) ∧ ∀ x ∈ rest.head?, p x = false := by
  refine ⟨xs.takeWhile p, xs.dropWhile p, List.takeWhile_append_dropWhile.symm,
    fun _ => List.mem_takeWhile_imp, ?_⟩
  intro x hx
  have := List.head?_dropWhile_not p xs
  rwa [Option.mem_def.mp hx] at this

end Propositional
