import Mathlib.Data.List.Basic

/-!
# Cells that are read in order

A reader goes over the cells `0, 1, …` of a source and takes what they hold.  What it has taken when
it stands at the cell `n` is `collect cell n`, however the cells in front of `n` were passed.
-/

namespace Lib

universe u

variable {α : Type u} {cell : Nat → Option α} {m n : Nat}

/-- What the first `n` cells hold, in order. -/
def collect (cell : Nat → Option α) (n : Nat) : List α := (List.range n).filterMap cell

@[simp] theorem collect_zero : collect cell 0 = [] := rfl

theorem collect_succ : collect cell (n + 1) = collect cell n ++ (cell n).toList := by
  unfold collect
  rw [List.range_succ, List.filterMap_append]
  cases hcell : cell n with
  | none => simp [hcell]
  | some a => simp [hcell]

theorem collect_skip (h : cell n = none) : collect cell (n + 1) = collect cell n := by
  rw [collect_succ, h, Option.toList_none, List.append_nil]

theorem collect_mono (h : m ≤ n) : collect cell m <+: collect cell n := by
  induction h with
  | refl => exact List.prefix_refl _
  | step _ ih => exact ih.trans (collect_succ ▸ List.prefix_append _ _)

theorem collect_comparable (m n : Nat) :
    collect cell m <+: collect cell n ∨ collect cell n <+: collect cell m := by
  cases Nat.le_total m n with
  | inl h => exact .inl (collect_mono h)
  | inr h => exact .inr (collect_mono h)

/-- Behind the last cell that holds anything nothing is taken. -/
theorem collect_end (hend : ∀ i, m ≤ i → cell i = none) (h : m ≤ n) :
    collect cell n = collect cell m := by
  induction h with
  | refl => rfl
  | step hle ih => rw [collect_skip (hend _ hle), ih]

end Lib
