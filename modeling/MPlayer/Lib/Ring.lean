import MPlayer.Lib.Memory

/-!
# Ring buffers

A ring of `size` cells stores element `p` of a file in the cell
`(p - base) mod size`.  The base moves by whole turns, which changes no cell
(`ringIndex_add_size`).

`RingHolds m size base file lo hi` says that the ring holds `file[lo ..< hi]`.
A write at `hi` extends it as long as the ring is not longer than one turn
(`RingHolds.write`), and the cells up to the end of the ring can be read in one
stretch (`RingHolds.read`).
-/

namespace Lib

universe u

variable {α : Type u}

/-! ## Cells -/

/-- The cell of element `p`. -/
def ringIndex (size base p : Int) : Nat := ((p - base) % size).toNat

variable {size base lo : Int} {m : Nat → α} {file data : List α} {pos : Nat}

theorem ringIndex_of_mem {p : Int} (h : base ≤ p) (h' : p < base + size) :
    ringIndex size base p = (p - base).toNat := by
  rw [ringIndex, Int.emod_eq_of_lt (by omega) (by omega)]

/-- Moving the base by one turn changes no cell. -/
theorem ringIndex_add_size (size base p : Int) :
    ringIndex size (base + size) p = ringIndex size base p := by
  have hsub : p - (base + size) = p - base - size := by omega
  rw [ringIndex, hsub, Int.sub_emod_right]
  rfl

/-- One turn further lies the same cell. -/
theorem ringIndex_shift (size base p : Int) :
    ringIndex size base (p + size) = ringIndex size base p := by
  have hsub : p + size - base = p - base + size := by omega
  rw [ringIndex, hsub, Int.add_emod_right]
  rfl

theorem ringIndex_lt (hs : 0 < size) (base p : Int) : (ringIndex size base p : Int) < size := by
  have h0 := Int.emod_nonneg (p - base) (Int.ne_of_gt hs)
  have h1 := Int.emod_lt_of_pos (p - base) hs
  unfold ringIndex
  omega

/-! ## Contents -/

/-- The ring holds `file[lo ..< hi]`. -/
def RingHolds (m : Nat → α) (size base : Int) (file : List α) (lo hi : Int) : Prop :=
  ∀ p : Nat, lo ≤ p → p < hi → file[p]? = some (m (ringIndex size base p))

theorem RingHolds.empty (m : Nat → α) (size base : Int) (file : List α) (a : Int) :
    RingHolds m size base file a a := fun _ h h' => absurd h' (by omega)

/-- Dropping elements at the front. -/
theorem RingHolds.mono {lo' hi : Int} (h : RingHolds m size base file lo hi) (hlo : lo ≤ lo') :
    RingHolds m size base file lo' hi := fun p hp hp' => h p (Int.le_trans hlo hp) hp'

/-- Moving the base by one turn. -/
theorem RingHolds.turn {hi : Int} (h : RingHolds m size base file lo hi) :
    RingHolds m size (base + size) file lo hi := by
  intro p hp hp'
  rw [ringIndex_add_size]
  exact h p hp hp'

/-- A stretch of the ring that does not run over its end, read in one go. -/
theorem RingHolds.read {m : Nat → α} {size base lo hi : Int} {file : List α}
    (h : RingHolds m size base file lo hi) {p : Nat} {k n : Nat} (hp : lo ≤ p)
    (hk : ringIndex size base p = k) (hhi : (p : Int) + n ≤ hi) (hend : (k : Int) + n ≤ size) :
    (List.range n).map (fun i => m (k + i)) = (file.drop p).take n := by
  have hcells : Mirrors m k file p n := by
    intro i hi
    have hidx : ringIndex size base ((p + i : Nat) : Int) = k + i := by
      have hmod := Int.emod_nonneg ((p : Int) - base) (b := size) (by omega)
      have hsum : ((p + i : Nat) : Int) - base = ((p : Int) - base) + i := by omega
      unfold ringIndex at hk ⊢
      rw [hsum, Int.add_emod, Int.emod_eq_of_lt (a := (i : Int)) (by omega) (by omega),
        Int.emod_eq_of_lt (by omega) (by omega)]
      omega
    rw [h (p + i) (by omega) (by omega), hidx]
  exact hcells.slice (k := 0) (by omega)

/-! ## Writing -/

/-- Write `data` from cell `pos` on and go on at cell zero behind the last cell. -/
def wrapBlit (m : Nat → α) (size pos : Nat) (data : List α) : Nat → α :=
  blit (blit m pos (data.take (size - pos))) 0 (data.drop (size - pos))

/-- Without a wrap this is one `blit`. -/
theorem wrapBlit_of_le {size : Nat} (h : data.length ≤ size - pos) :
    wrapBlit m size pos data = blit m pos data := by
  rw [wrapBlit, List.take_of_length_le h, List.drop_of_length_le h, blit_nil]

/-- A written cell before the wrap. -/
theorem wrapBlit_before {size i : Nat} {x : α} (hlen : data.length ≤ size) (hi : pos + i < size)
    (hx : data[i]? = some x) : wrapBlit m size pos data (pos + i) = x := by
  have hlt := (List.getElem?_eq_some_iff.mp hx).1
  rw [wrapBlit, blit_outside (Or.inr (by rw [List.length_drop]; omega))]
  exact blit_inside (by rw [List.getElem?_take_of_lt (by omega), hx])

/-- A written cell after the wrap. -/
theorem wrapBlit_after {size i : Nat} {x : α} (hpos : pos ≤ size) (hi : size ≤ pos + i)
    (hx : data[i]? = some x) : wrapBlit m size pos data (pos + i - size) = x := by
  have hcell : pos + i - size = 0 + (i - (size - pos)) := by omega
  rw [wrapBlit, hcell]
  refine blit_inside ?_
  rw [List.getElem?_drop, Nat.add_sub_cancel' (by omega), hx]

/-- A cell that is not written. -/
theorem wrapBlit_outside {size j : Nat} (hpos : pos ≤ size)
    (hlo : j < pos ∨ pos + data.length ≤ j) (hhi : size + j < pos ∨ pos + data.length ≤ size + j)
    (hj : j < size) : wrapBlit m size pos data j = m j := by
  rw [wrapBlit, blit_outside (Or.inr ?_), blit_outside ?_]
  · rw [List.length_take]
    omega
  · rw [List.length_drop]
    omega

/-- Writing the file's next elements extends what the ring holds, if the old and
the new elements together take at most one turn. -/
theorem RingHolds.write {hi : Int} {q : Nat} (h : RingHolds m size base file lo hi) (hq : hi = q)
    (hbase : base ≤ hi) (hturn : hi < base + size) (hd : data <+: file.drop q)
    (hroom : hi + data.length - lo ≤ size) (hlo : lo ≤ hi) :
    RingHolds (wrapBlit m size.toNat (hi - base).toNat data) size base file lo
      (hi + data.length) := by
  intro p hp hp'
  obtain ⟨pos, hpos⟩ : ∃ pos : Nat, (hi - base).toNat = pos := ⟨_, rfl⟩
  rw [hpos]
  by_cases hold : (p : Int) < hi
  · rw [h p hp hold]
    congr 1
    symm
    -- An old element behind the base lies in front of the written stretch.
    by_cases hin : base ≤ p
    · rw [ringIndex_of_mem hin (by omega)]
      exact wrapBlit_outside (by omega) (Or.inl (by omega)) (Or.inr (by omega)) (by omega)
    · rw [← ringIndex_shift, ringIndex_of_mem (by omega) (by omega)]
      exact wrapBlit_outside (by omega) (Or.inr (by omega)) (Or.inr (by omega)) (by omega)
  · obtain ⟨i, hi'⟩ : ∃ i : Nat, p = q + i := ⟨p - q, by omega⟩
    have hlt : i < data.length := by omega
    have hget : data[i]? = some data[i] := List.getElem?_eq_getElem hlt
    have hfile : file[p]? = some data[i] := by
      obtain ⟨rest, hrest⟩ := hd
      rw [hi', ← List.getElem?_drop, ← hrest, List.getElem?_append_left hlt, hget]
    rw [hfile]
    congr 1
    symm
    by_cases hwrap : pos + i < size.toNat
    · rw [ringIndex_of_mem (by omega) (by omega)]
      have hcell : ((p : Int) - base).toNat = pos + i := by omega
      rw [hcell]
      exact wrapBlit_before (by omega) hwrap hget
    · rw [← ringIndex_add_size, ringIndex_of_mem (by omega) (by omega)]
      have hcell : ((p : Int) - (base + size)).toNat = pos + i - size.toNat := by omega
      rw [hcell]
      exact wrapBlit_after (by omega) (by omega) hget

end Lib
