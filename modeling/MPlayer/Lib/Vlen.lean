import Mathlib.Algebra.Group.Nat.Defs

/-!
# Numbers of variable length

A big-endian number of `w` bytes, and the code that puts a number of up to `7 * w` bits into
`w` bytes: the number of zeros before the first one bit of the first byte tells how many
bytes follow it.
-/

namespace Lib

/-! ## Big-endian numbers -/

/-- The big-endian number that the bytes are, with `acc` before them. -/
def beValue (acc : Nat) : List UInt8 → Nat
  | [] => acc
  | b :: bytes => beValue (acc * 256 + b.toNat) bytes

/-- The last `w` bytes of a number. -/
def beBytes : Nat → Nat → List UInt8
  | 0, _ => []
  | w + 1, n => beBytes w (n / 256) ++ [UInt8.ofNat n]

@[simp] theorem length_beBytes : ∀ (w n : Nat), (beBytes w n).length = w
  | 0, _ => rfl
  | w + 1, n => by rw [beBytes, List.length_append, length_beBytes w]; rfl

theorem beValue_append (acc : Nat) (xs ys : List UInt8) :
    beValue acc (xs ++ ys) = beValue (beValue acc xs) ys := by
  induction xs generalizing acc with
  | nil => rfl
  | cons x xs ih => exact ih _

theorem mod_pow_succ (w n : Nat) :
    n % 256 ^ (w + 1) = n / 256 % 256 ^ w * 256 + n % 256 := by
  rw [Nat.pow_succ, Nat.mul_comm (256 ^ w), Nat.mod_mul, Nat.mul_comm 256, Nat.add_comm]

/-- The bytes of a number give it back behind anything that stands before them. -/
theorem beValue_beBytes : ∀ (w acc n : Nat), beValue acc (beBytes w n) = acc * 256 ^ w + n % 256 ^ w
  | 0, acc, n => by simp [beBytes, beValue, Nat.mod_one]
  | w + 1, acc, n => by
    rw [beBytes, beValue_append, beValue_beBytes w]
    have hbyte : (UInt8.ofNat n).toNat = n % 256 := UInt8.toNat_ofNat'
    rw [beValue, beValue, hbyte]
    rw [mod_pow_succ, Nat.pow_succ, Nat.add_mul, Nat.mul_assoc, Nat.add_assoc]

/-- All bytes of a number are 255 exactly if it is the largest of its length. -/
theorem count_beBytes : ∀ (w n : Nat), (beBytes w n).count 255 = w ↔ n % 256 ^ w + 1 = 256 ^ w
  | 0, n => by simp [beBytes, Nat.mod_one]
  | w + 1, n => by
    have hih := count_beBytes w (n / 256)
    have hle : (beBytes w (n / 256)).count 255 ≤ w := by
      have := List.count_le_length (a := (255 : UInt8)) (l := beBytes w (n / 256))
      rwa [length_beBytes] at this
    have hbyte : (UInt8.ofNat n = 255) ↔ n % 256 = 255 := by
      rw [← UInt8.toNat_inj, UInt8.toNat_ofNat']
      rfl
    have hlt : n / 256 % 256 ^ w < 256 ^ w := Nat.mod_lt _ (Nat.pow_pos (by decide))
    rw [beBytes, List.count_append, List.count_singleton, mod_pow_succ, Nat.pow_succ]
    by_cases hlast : UInt8.ofNat n = 255
    · have hmod := hbyte.mp hlast
      rw [hlast, beq_self_eq_true, if_pos rfl]
      omega
    · have hmod : n % 256 ≠ 255 := fun h => hlast (hbyte.mpr h)
      rw [beq_false_of_ne hlast, if_neg (by decide)]
      omega

/-- The first byte of a number of `w + 1` bytes. -/
theorem beBytes_succ : ∀ (w n : Nat), beBytes (w + 1) n = UInt8.ofNat (n / 256 ^ w) :: beBytes w n
  | 0, n => by simp [beBytes]
  | w + 1, n => by
    rw [beBytes, beBytes_succ w, List.cons_append, Nat.div_div_eq_div_mul, ← Nat.pow_succ', beBytes]

/-- What stands before the last `w` bytes does not count. -/
theorem beBytes_mul_add : ∀ (w k n : Nat), beBytes w (k * 256 ^ w + n) = beBytes w n
  | 0, _, _ => rfl
  | w + 1, k, n => by
    have hdiv : (k * 256 ^ (w + 1) + n) / 256 = k * 256 ^ w + n / 256 := by
      rw [Nat.pow_succ, ← Nat.mul_assoc, Nat.mul_comm _ 256, Nat.mul_add_div (by decide)]
    have hbyte : UInt8.ofNat (k * 256 ^ (w + 1) + n) = UInt8.ofNat n := by
      apply UInt8.toNat_inj.mp
      rw [UInt8.toNat_ofNat', UInt8.toNat_ofNat', Nat.pow_succ, ← Nat.mul_assoc,
        Nat.mul_comm _ 256, Nat.mul_add_mod]
    rw [beBytes, hdiv, hbyte, beBytes_mul_add w, beBytes]

/-- A big-endian number lies between its first part and the next one. -/
theorem beValue_bounds : ∀ (bytes : List UInt8) (acc : Nat),
    acc * 256 ^ bytes.length ≤ beValue acc bytes ∧
      beValue acc bytes < (acc + 1) * 256 ^ bytes.length
  | [], acc => by
    rw [beValue, List.length_nil, Nat.pow_zero, Nat.mul_one, Nat.mul_one]
    exact ⟨Nat.le_refl _, Nat.lt_succ_self _⟩
  | b :: bytes, acc => by
    have hb : b.toNat < 256 := b.toNat_lt
    have hfirst : acc * 256 ≤ acc * 256 + b.toNat := Nat.le_add_right _ _
    have hnext : acc * 256 + b.toNat + 1 ≤ (acc + 1) * 256 := by
      rw [Nat.succ_mul]
      exact Nat.add_lt_add_left hb _
    obtain ⟨hlo, hhi⟩ := beValue_bounds bytes (acc * 256 + b.toNat)
    rw [beValue, List.length_cons, Nat.pow_succ', ← Nat.mul_assoc, ← Nat.mul_assoc]
    exact ⟨Nat.le_trans (Nat.mul_le_mul_right _ hfirst) hlo,
      Nat.lt_of_lt_of_le hhi (Nat.mul_le_mul_right _ hnext)⟩

/-- A number of as many bytes gives the bytes back. -/
theorem beBytes_beValue : ∀ (bytes : List UInt8) (acc : Nat),
    beBytes bytes.length (beValue acc bytes) = bytes
  | [], _ => rfl
  | b :: bytes, acc => by
    obtain ⟨hlo, hhi⟩ := beValue_bounds bytes (acc * 256 + b.toNat)
    have hdiv : beValue (acc * 256 + b.toNat) bytes / 256 ^ bytes.length =
        acc * 256 + b.toNat := Nat.div_eq_of_lt_le hlo hhi
    have hbyte : UInt8.ofNat (acc * 256 + b.toNat) = b := by
      apply UInt8.toNat_inj.mp
      rw [UInt8.toNat_ofNat']
      have := b.toNat_lt
      omega
    rw [beValue, List.length_cons, beBytes_succ, hdiv, hbyte, beBytes_beValue]

/-! ## Numbers that tell their length -/

/-- The zeros before the first one bit of a byte, `limit` if there is none among the first
`limit` bits. -/
def leadingZeros (limit : Nat) (b : UInt8) : Nat :=
  (List.range limit).findIdx fun i => b.toNat.testBit (7 - i)

/-- The code of a number in `w` bytes. -/
def vlen (w n : Nat) : List UInt8 := beBytes w (2 ^ (7 * w) + n)

@[simp] theorem length_vlen (w n : Nat) : (vlen w n).length = w := length_beBytes w _

theorem pow_vlen {w : Nat} (hw : w < 8) : 2 ^ (7 * (w + 1)) = 2 ^ (7 - w) * 256 ^ w := by
  rw [show (256 : Nat) = 2 ^ 8 from rfl, ← Nat.pow_mul, ← Nat.pow_add]
  congr 1
  omega

/-- The first byte of the code has a one bit where the length says, and the top of the
number below it. -/
theorem vlen_succ {w n : Nat} (hw : w < 8) (hn : n < 2 ^ (7 * (w + 1))) :
    ∃ b, vlen (w + 1) n = b :: beBytes w n ∧ b.toNat = 2 ^ (7 - w) + n / 256 ^ w ∧
      n / 256 ^ w < 2 ^ (7 - w) := by
  have hpos : 0 < 256 ^ w := Nat.pow_pos (by decide)
  have htop : n / 256 ^ w < 2 ^ (7 - w) := by
    rw [Nat.div_lt_iff_lt_mul hpos, ← pow_vlen hw]
    exact hn
  have hfirst : (2 ^ (7 * (w + 1)) + n) / 256 ^ w = 2 ^ (7 - w) + n / 256 ^ w := by
    rw [pow_vlen hw, Nat.mul_comm, Nat.mul_add_div hpos]
  have hle : 2 ^ (7 - w) ≤ 2 ^ 7 := Nat.pow_le_pow_right (by decide) (Nat.sub_le 7 w)
  refine ⟨UInt8.ofNat (2 ^ (7 - w) + n / 256 ^ w), ?_, ?_, htop⟩
  · rw [vlen, beBytes_succ, hfirst, pow_vlen hw, beBytes_mul_add]
  · rw [UInt8.toNat_ofNat', Nat.mod_eq_of_lt]
    omega

/-- The first byte of the code tells how many bytes follow. -/
theorem leadingZeros_first {w limit t : Nat} {b : UInt8} (hw : w < limit) (hlimit : limit ≤ 8)
    (hb : b.toNat = 2 ^ (7 - w) + t) (ht : t < 2 ^ (7 - w)) : leadingZeros limit b = w := by
  have hlo : 2 ^ (7 - w) ≤ b.toNat := hb ▸ Nat.le_add_right _ _
  have hhi : b.toNat < 2 * 2 ^ (7 - w) := by rw [hb, Nat.two_mul]; exact Nat.add_lt_add_left ht _
  have hlen : w < (List.range limit).length := by rwa [List.length_range]
  rw [leadingZeros, List.findIdx_eq hlen]
  have hdiv : ∀ i, b.toNat.testBit (7 - i) = decide (b.toNat / 2 ^ (7 - i) % 2 = 1) :=
    fun i => Nat.testBit_eq_decide_div_mod_eq
  refine ⟨?_, fun j hj => ?_⟩
  · have hone : b.toNat / 2 ^ (7 - w) = 1 :=
      Nat.div_eq_of_lt_le (by rwa [Nat.one_mul]) hhi
    rw [List.getElem_range, hdiv, hone]
    rfl
  · rw [List.getElem_range]
    refine Nat.testBit_lt_two_pow (Nat.lt_of_lt_of_le hhi ?_)
    rw [← Nat.pow_succ']
    exact Nat.pow_le_pow_right (by decide) (by omega)

/-- The first one bit of a byte bounds it. -/
theorem leadingZeros_bounds {w : Nat} {b : UInt8} (hw : w < 8) (hb : leadingZeros 8 b = w) :
    2 ^ (7 - w) ≤ b.toNat ∧ b.toNat < 2 * 2 ^ (7 - w) := by
  have hall : ∀ n < 256, leadingZeros 8 (UInt8.ofNat n) < 8 →
      2 ^ (7 - leadingZeros 8 (UInt8.ofNat n)) ≤ n ∧
        n < 2 * 2 ^ (7 - leadingZeros 8 (UInt8.ofNat n)) := by decide +kernel
  have h := hall b.toNat b.toNat_lt
  rw [UInt8.ofNat_toNat, hb] at h
  exact h hw

/-- A byte without a one bit is zero. -/
theorem leadingZeros_eq_zero {b : UInt8} : 8 ≤ leadingZeros 8 b ↔ b = 0 := by
  have hall : ∀ n < 256, 8 ≤ leadingZeros 8 (UInt8.ofNat n) ↔ UInt8.ofNat n = 0 := by
    decide +kernel
  have h := hall b.toNat b.toNat_lt
  rwa [UInt8.ofNat_toNat] at h

/-- Every byte that tells a length, with that many bytes behind it, is the code of a number. -/
theorem exists_vlen {b : UInt8} {bytes : List UInt8} (hb : leadingZeros 8 b = bytes.length)
    (hw : bytes.length < 8) :
    ∃ n, n < 2 ^ (7 * (bytes.length + 1)) ∧ b :: bytes = vlen (bytes.length + 1) n := by
  obtain ⟨hlo, hhi⟩ := leadingZeros_bounds hw hb
  obtain ⟨hfirst, hnext⟩ := beValue_bounds bytes (0 * 256 + b.toNat)
  rw [Nat.zero_mul, Nat.zero_add] at hfirst hnext
  have hpow := pow_vlen hw
  have hmin : 2 ^ (7 * (bytes.length + 1)) ≤ beValue 0 (b :: bytes) := by
    rw [beValue, Nat.zero_mul, Nat.zero_add, hpow]
    exact Nat.le_trans (Nat.mul_le_mul_right _ hlo) hfirst
  have hmax : beValue 0 (b :: bytes) < 2 * 2 ^ (7 * (bytes.length + 1)) := by
    rw [beValue, Nat.zero_mul, Nat.zero_add, hpow, ← Nat.mul_assoc]
    exact Nat.lt_of_lt_of_le hnext (Nat.mul_le_mul_right _ hhi)
  refine ⟨beValue 0 (b :: bytes) - 2 ^ (7 * (bytes.length + 1)), by omega, ?_⟩
  rw [vlen, Nat.add_sub_of_le hmin]
  exact (beBytes_beValue (b :: bytes) 0).symm

end Lib
