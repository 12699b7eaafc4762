/-!
# Byte memory that mirrors a file

A memory is a total function from indices to cells.  `blit` overwrites a
stretch of it with a list, as `memcpy` does.  `Mirrors m off file a n` says that
the `n` cells from `off` hold the file's elements from `a` on.
-/

namespace Lib

universe u

variable {α : Type u}

/-- `m` with the cells from `off` on overwritten by `data`. -/
def blit (m : Nat → α) (off : Nat) (data : List α) : Nat → α := fun i =>
  if off ≤ i then (data[i - off]?).getD (m i) else m i

variable {m : Nat → α} {off a n : Nat} {data file : List α}

/-- A cell inside the overwritten stretch. -/
theorem blit_inside {i : Nat} {x : α} (h : data[i]? = some x) : blit m off data (off + i) = x := by
  simp [blit, h]

/-- A cell outside the overwritten stretch. -/
theorem blit_outside {i : Nat} (h : i < off ∨ off + data.length ≤ i) : blit m off data i = m i := by
  unfold blit
  split
  · have hlen : data.length ≤ i - off := by omega
    rw [List.getElem?_eq_none hlen]
    rfl
  · rfl

theorem blit_nil (m : Nat → α) (off : Nat) : blit m off [] = m := by
  funext i
  simp [blit]

/-- The cells `off ..< off + n` of `m` hold `file[a ..< a + n]`. -/
def Mirrors (m : Nat → α) (off : Nat) (file : List α) (a n : Nat) : Prop :=
  ∀ i < n, file[a + i]? = some (m (off + i))

theorem Mirrors.zero (m : Nat → α) (off : Nat) (file : List α) (a : Nat) :
    Mirrors m off file a 0 := fun _ h => absurd h (Nat.not_lt_zero _)

/-- Mirrored cells lie inside the file. -/
theorem Mirrors.le_length (h : Mirrors m off file a n) (hn : 0 < n) : a + n ≤ file.length := by
  have hlast := h (n - 1) (by omega)
  have hlt := (List.getElem?_eq_some_iff.mp hlast).1
  omega

/-- Writing the file's next elements after a mirrored stretch extends it. -/
theorem Mirrors.blit_append (h : Mirrors m off file a n) (hd : data <+: file.drop (a + n)) :
    Mirrors (blit m (off + n) data) off file a (n + data.length) := by
  intro i hi
  by_cases hin : i < n
  · rw [blit_outside (Or.inl (by omega))]
    exact h i hin
  · have hlt : i - n < data.length := by omega
    have hget : data[i - n]? = some data[i - n] := List.getElem?_eq_getElem hlt
    have hidx : off + i = off + n + (i - n) := by omega
    rw [hidx, blit_inside hget]
    obtain ⟨rest, hrest⟩ := hd
    have hfile : (file.drop (a + n))[i - n]? = some data[i - n] := by
      rw [← hrest, List.getElem?_append_left hlt, hget]
    rw [List.getElem?_drop] at hfile
    rw [← hfile]
    congr 1
    omega

/-- What is written behind a mirrored stretch makes it a stretch of a longer file. -/
theorem Mirrors.blit_concat (h : Mirrors m off file 0 file.length) (data : List α) :
    Mirrors (blit m (off + file.length) data) off (file ++ data) 0 (file ++ data).length := by
  have hfile : Mirrors m off (file ++ data) 0 file.length := by
    intro i hi
    rw [List.getElem?_append_left (by omega)]
    exact h i hi
  rw [List.length_append]
  have hrest : (file ++ data).drop (0 + file.length) = data := by
    rw [Nat.zero_add, List.drop_left]
  exact hfile.blit_append (hrest.symm ▸ List.prefix_refl data)

/-- The cells of a mirrored stretch, read from index `k` on, are a slice of the
file. -/
theorem Mirrors.slice (h : Mirrors m off file a n) {k x : Nat} (hk : k + x ≤ n) :
    (List.range x).map (fun i => m (off + k + i)) = (file.drop (a + k)).take x := by
  apply List.ext_getElem?
  intro i
  by_cases hi : i < x
  · have hcell := h (k + i) (by omega)
    rw [← Nat.add_assoc, ← Nat.add_assoc] at hcell
    rw [List.getElem?_map, List.getElem?_range hi, List.getElem?_take_of_lt hi,
      List.getElem?_drop, hcell]
    rfl
  · rw [List.getElem?_eq_none (by simpa using Nat.le_of_not_lt hi),
      List.getElem?_eq_none (by rw [List.length_take]; omega)]

end Lib
