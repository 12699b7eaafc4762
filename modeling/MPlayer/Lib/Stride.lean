import Mathlib.Data.List.Basic
import Mathlib.Logic.ExistsUnique

/-!
# Places in rows

A table of `n` rows has `h` cells of `l` places each in a row.  Place `d` of cell `i` in
row `x` is `l * (h * x + i) + d`: every place is in one cell of one row
(`existsUnique_place`), also if the cells are first permuted.  A list that is cut into
pieces of one length is their concatenation (`flatten_pieces`).
-/

namespace Lib

/-! ## Places -/

/-- The places of two pieces do not overlap. -/
theorem stride_apart {l d q r : Nat} (hqr : q ≠ r) (hd : d < l) :
    l * q + d < l * r ∨ l * r + l ≤ l * q + d := by
  cases Nat.lt_or_gt_of_ne hqr with
  | inl hlt =>
    have hle : l * (q + 1) ≤ l * r := Nat.mul_le_mul_left l hlt
    rw [Nat.mul_succ] at hle
    omega
  | inr hlt =>
    have hle : l * (r + 1) ≤ l * q := Nat.mul_le_mul_left l hlt
    rw [Nat.mul_succ] at hle
    omega

theorem stride_div {l d : Nat} (q : Nat) (hd : d < l) : (l * q + d) / l = q := by
  rw [Nat.mul_add_div (Nat.lt_of_le_of_lt (Nat.zero_le d) hd), Nat.div_eq_of_lt hd, Nat.add_zero]

theorem stride_mod {l d : Nat} (q : Nat) (hd : d < l) : (l * q + d) % l = d := by
  rw [Nat.mul_add_mod, Nat.mod_eq_of_lt hd]

theorem stride_lt {l n q d : Nat} (hq : q < n) (hd : d < l) : l * q + d < l * n := by
  have hle : l * (q + 1) ≤ l * n := Nat.mul_le_mul_left l hq
  rw [Nat.mul_succ] at hle
  omega

/-- Every place is in one piece. -/
theorem existsUnique_piece {l n k : Nat} (hk : k < l * n) :
    ∃! p : Nat × Nat, p.1 < n ∧ p.2 < l ∧ l * p.1 + p.2 = k := by
  have hl : 0 < l := Nat.pos_of_ne_zero fun hl => by
    rw [hl, Nat.zero_mul] at hk
    exact Nat.not_lt_zero k hk
  refine ⟨(k / l, k % l), ⟨Nat.div_lt_of_lt_mul hk, Nat.mod_lt k hl, Nat.div_add_mod k l⟩, ?_⟩
  rintro ⟨q, d⟩ ⟨-, hd, heq⟩
  rw [← heq]
  exact Prod.ext (stride_div q hd).symm (stride_mod q hd).symm

/-- The cells of a row in another order. -/
structure Slots (h : Nat) (slot : Nat → Nat) : Prop where
  lt : ∀ i < h, slot i < h
  injective : ∀ i < h, ∀ j < h, slot i = slot j → i = j
  surjective : ∀ k < h, ∃ i < h, slot i = k

theorem slots_id (h : Nat) : Slots h fun i => i :=
  ⟨fun _ hi => hi, fun _ _ _ _ hij => hij, fun k hk => ⟨k, hk, rfl⟩⟩

/-- Two cells are the same only if they are the same cell of the same row. -/
theorem Slots.cell_inj {h : Nat} {slot : Nat → Nat} (hs : Slots h slot) {i j x y : Nat} (hi : i < h)
    (hj : j < h) (heq : h * x + slot i = h * y + slot j) : i = j ∧ x = y := by
  have hrow := congrArg (· / h) heq
  have hcell := congrArg (· % h) heq
  simp only [stride_div _ (hs.lt i hi), stride_div _ (hs.lt j hj)] at hrow
  simp only [stride_mod _ (hs.lt i hi), stride_mod _ (hs.lt j hj)] at hcell
  exact ⟨hs.injective i hi j hj hcell, hrow⟩

/-- Every place of the table is in one cell of one row. -/
theorem Slots.existsUnique_place {h l n k : Nat} {slot : Nat → Nat} (hs : Slots h slot)
    (hk : k < l * (h * n)) : ∃! p : Nat × Nat × Nat,
      p.1 < h ∧ p.2.1 < n ∧ p.2.2 < l ∧ l * (h * p.2.1 + slot p.1) + p.2.2 = k := by
  obtain ⟨⟨q, d⟩, ⟨hq, hd, hqd⟩, hpiece⟩ := existsUnique_piece hk
  obtain ⟨⟨x, c⟩, ⟨hx, hc, hxc⟩, -⟩ := existsUnique_piece hq
  obtain ⟨i, hi, hslot⟩ := hs.surjective c hc
  refine ⟨(i, x, d), ⟨hi, hx, hd, ?_⟩, ?_⟩
  · simp only at hxc hqd ⊢
    rw [hslot, hxc, hqd]
  · rintro ⟨j, y, e⟩ ⟨hj, hy, he, heq⟩
    have hsame := hpiece (h * y + slot j, e) ⟨stride_lt hy (hs.lt j hj), he, heq⟩
    obtain ⟨hcell, hplace⟩ := Prod.mk.inj hsame
    simp only at hxc
    rw [← hxc, ← hslot] at hcell
    obtain ⟨hij, hxy⟩ := hs.cell_inj hj hi hcell
    exact Prod.ext hij (Prod.ext hxy hplace)

/-! ## Pieces -/

/-- The first `m` pieces of a list are what it begins with. -/
theorem flatten_pieces {α : Type} (l : List α) (n m : Nat) :
    ((List.range m).map fun x => (l.drop (x * n)).take n).flatten = l.take (m * n) := by
  induction m with
  | zero => rw [Nat.zero_mul, List.take_zero]; rfl
  | succ m ih =>
    rw [List.range_succ, List.map_append, List.flatten_append, ih, Nat.succ_mul, List.take_add]
    simp

/-- Pieces of one length give a multiple of it. -/
theorem dvd_length_flatten {α : Type} {n : Nat} {ls : List (List α)} (h : ∀ l ∈ ls, l.length = n) :
    n ∣ ls.flatten.length := by
  induction ls with
  | nil => exact Nat.dvd_zero n
  | cons l ls ih =>
    rw [List.flatten_cons, List.length_append, h l List.mem_cons_self]
    exact Nat.dvd_add (Nat.dvd_refl n) (ih fun l' hl' => h l' (List.mem_cons_of_mem l hl'))

end Lib
