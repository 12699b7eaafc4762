import Mathlib.Data.Nat.ModEq
import Mathlib.Logic.Function.Basic

/-!
# Rings with free-running counters

A ring of `size` cells is addressed by counters that are never reduced but wrap at `W`.  Counter
value `n` has the cell `n % W % size`.

As long as `size` divides `W` this is a ring like any other.  If it doesn't, the cells jump when a
counter wraps, and two values less than one turn apart share a cell exactly if the later one is
among the first `W % size` behind the wrap and the earlier one is `W % size` in front of it
(`counterCell_eq_iff`).
-/

namespace Lib

universe u

variable {α : Type u} {W size : Nat}

/-! ## Cells -/

/-- The cell of counter value `n`. -/
def counterCell (W size n : Nat) : Nat := n % W % size

/-- Numbers less than `size` apart leave different remainders. -/
theorem mod_ne_mod {a b : Nat} (h : a < b) (hb : b < a + size) : a % size ≠ b % size := by
  intro heq
  have hdvd : size ∣ b - a := (Nat.modEq_iff_dvd' h.le).mp heq
  have hle := Nat.le_of_dvd (by omega) hdvd
  omega

/-- When two values less than one turn apart have the same cell. -/
theorem counterCell_eq_iff {p q : Nat} (hW : size ≤ W) (hpq : p < q) (hq : q < p + size) :
    counterCell W size p = counterCell W size q ↔ q % W < W % size ∧ q = p + W % size := by
  have hpos : 0 < size := by omega
  have hdivp := Nat.div_add_mod p W
  have hdivq := Nat.div_add_mod q W
  have hltp := Nat.mod_lt p (show 0 < W by omega)
  have hltq := Nat.mod_lt q (show 0 < W by omega)
  have hmod := Nat.mod_lt W hpos
  rcases Nat.lt_or_ge (p / W) (q / W) with hlt | hge
  · -- The counter wraps between the two.
    have hnext : q / W = p / W + 1 := by
      have hle : W * (p / W + 1) ≤ W * (q / W) := Nat.mul_le_mul_left W hlt
      rcases Nat.lt_or_ge (p / W + 1) (q / W) with hfar | hnear
      · have hfar' : W * (p / W + 2) ≤ W * (q / W) := Nat.mul_le_mul_left W hfar
        rw [Nat.mul_add] at hfar'
        omega
      · omega
    have hdist : q - p = q % W + (W - p % W) := by
      have hmul : W * (q / W) = W * (p / W) + W := by rw [hnext, Nat.mul_succ]
      omega
    have hshift : (p % W + (q - p)) % size = (q % W + W) % size := by
      congr 1
      omega
    constructor
    · intro heq
      have hcong : (q - p) % size = W % size := by
        have h1 : (p % W + (q - p)) ≡ p % W + W [MOD size] := by
          show _ % size = _ % size
          rw [hshift]
          exact (Nat.ModEq.add_right W heq).symm
        exact Nat.ModEq.add_left_cancel' (p % W) h1
      rw [Nat.mod_eq_of_lt (by omega)] at hcong
      omega
    · rintro ⟨hsmall, hsum⟩
      have hcong : (p % W + W) % size = (q % W + W) % size := by
        rw [← hshift, hsum, Nat.add_sub_cancel_left]
        simp [Nat.add_mod]
      exact Nat.ModEq.add_right_cancel' W hcong
  · -- Without a wrap the values are as far apart as the counters.
    have hsame : q / W = p / W := Nat.le_antisymm hge (Nat.div_le_div_right hpq.le)
    rw [hsame] at hdivq
    constructor
    · intro heq
      exact absurd heq (mod_ne_mod (by omega) (by omega))
    · rintro ⟨hsmall, hsum⟩
      omega

/-! ## Clashes -/

/-- With `n` elements in the ring up to counter value `w`, its cell still holds one of them. -/
def CounterClash (W size w n : Nat) : Prop := w % W < W % size ∧ W % size ≤ n

instance (W size w n : Nat) : Decidable (CounterClash W size w n) :=
  inferInstanceAs (Decidable (_ ∧ _))

theorem counterClash_iff {r n : Nat} (hW : size ≤ W) (hn : n < size) :
    CounterClash W size (r + n) n ↔
      ∃ i < n, counterCell W size (r + i) = counterCell W size (r + n) := by
  constructor
  · rintro ⟨hlt, hle⟩
    refine ⟨n - W % size, by omega, ?_⟩
    exact (counterCell_eq_iff hW (by omega) (by omega)).mpr ⟨hlt, by omega⟩
  · rintro ⟨i, hi, heq⟩
    obtain ⟨hlt, hsum⟩ := (counterCell_eq_iff hW (by omega) (by omega)).mp heq
    exact ⟨hlt, by omega⟩

/-! ## Contents -/

/-- The cells from counter value `r` on hold the elements of `q`. -/
def CounterHolds (W size : Nat) (m : Nat → α) (r : Nat) (q : List α) : Prop :=
  ∀ i x, q[i]? = some x → m (counterCell W size (r + i)) = x

theorem CounterHolds.nil (m : Nat → α) (r : Nat) : CounterHolds W size m r [] := by
  intro i x h
  simp at h

/-- The first element is in the cell of `r`. -/
theorem CounterHolds.head {m : Nat → α} {r : Nat} {x : α} {q : List α}
    (h : CounterHolds W size m r (x :: q)) : m (counterCell W size r) = x :=
  h 0 x rfl

theorem CounterHolds.tail {m : Nat → α} {r : Nat} {x : α} {q : List α}
    (h : CounterHolds W size m r (x :: q)) : CounterHolds W size m (r + 1) q := by
  intro i y hy
  rw [Nat.add_assoc, Nat.add_comm 1]
  exact h (i + 1) y (by simpa using hy)

/-- An element can be added behind the others where nothing clashes. -/
theorem CounterHolds.push {m : Nat → α} {r : Nat} {q : List α} (h : CounterHolds W size m r q)
    (hW : size ≤ W) (hq : q.length < size) (x : α)
    (hclash : ¬ CounterClash W size (r + q.length) q.length) :
    CounterHolds W size (Function.update m (counterCell W size (r + q.length)) x) r (q ++ [x]) := by
  intro i y hy
  rcases Nat.lt_trichotomy i q.length with hi | rfl | hi
  · rw [List.getElem?_append_left hi] at hy
    rw [Function.update_of_ne, h i y hy]
    intro heq
    exact hclash ((counterClash_iff hW hq).mpr ⟨i, hi, heq⟩)
  · simp at hy
    simp [hy]
  · rw [List.getElem?_eq_none (by simp; omega)] at hy
    cases hy

end Lib
