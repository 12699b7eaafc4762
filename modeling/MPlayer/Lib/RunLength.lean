import Mathlib.Algebra.GroupWithZero.Nat

/-!
# Run lengths

A row `a` of a table stands for `n a` items.  `starts n rows j` is the number of items before row
`j`, and `expand n rows` has for every item its row.
-/

namespace Lib

variable {α : Type}

/-- The number of items before a row. -/
def starts (n : α → Nat) (rows : List α) (j : Nat) : Nat := ((rows.take j).map n).sum

/-- The row of every item. -/
def expand (n : α → Nat) (rows : List α) : List α := rows.flatMap fun a => List.replicate (n a) a

variable {n : α → Nat} {rows : List α}

theorem starts_zero : starts n rows 0 = 0 := by
  unfold starts
  rw [List.take_zero]
  rfl

theorem starts_succ {j : Nat} {a : α} (h : rows[j]? = some a) :
    starts n rows (j + 1) = starts n rows j + n a := by
  unfold starts
  rw [List.take_add_one, h, List.map_append, List.sum_append]
  rfl

theorem starts_cons (a : α) (j : Nat) : starts n (a :: rows) (j + 1) = n a + starts n rows j := by
  unfold starts
  rw [List.take_succ_cons, List.map_cons, List.sum_cons]

/-- The items of a row stand one after the other. -/
theorem expand_at : {rows : List α} → {j i : Nat} → {a : α} → rows[j]? = some a → i < n a →
    (expand n rows)[starts n rows j + i]? = some a
  | b :: rows, 0, i, a, h, hi => by
    cases Option.some.inj h
    unfold expand
    rw [starts_zero, Nat.zero_add, List.flatMap_cons,
      List.getElem?_append_left (by rw [List.length_replicate]; exact hi),
      List.getElem?_replicate, if_pos hi]
  | b :: rows, j + 1, i, a, h, hi => by
    have ih : (expand n rows)[starts n rows j + i]? = some a := expand_at h hi
    unfold expand at ih ⊢
    rw [starts_cons, List.flatMap_cons, Nat.add_assoc,
      List.getElem?_append_right (by rw [List.length_replicate]; omega), List.length_replicate,
      Nat.add_sub_cancel_left]
    exact ih

/-- Every item stands in a row. -/
theorem exists_starts : {rows : List α} → {k : Nat} → k < starts n rows rows.length →
    ∃ j a i, rows[j]? = some a ∧ i < n a ∧ k = starts n rows j + i
  | [], k, h => by
    rw [List.length_nil, starts_zero] at h
    exact absurd h (Nat.not_lt_zero k)
  | a :: rows, k, h => by
    by_cases hk : k < n a
    · exact ⟨0, a, k, rfl, hk, by rw [starts_zero, Nat.zero_add]⟩
    · rw [List.length_cons, starts_cons] at h
      have hrest : k - n a < starts n rows rows.length := by omega
      obtain ⟨j, b, i, hj, hi, hki⟩ := exists_starts hrest
      refine ⟨j + 1, b, i, hj, hi, ?_⟩
      rw [starts_cons]
      omega

end Lib
