import Mathlib.Algebra.BigOperators.Fin
import Mathlib.Algebra.Order.BigOperators.Group.Finset
import MPlayer.Lib.Fin

/-!
# SSE2 registers

A register is sixteen bytes, or eight words of two bytes, the low byte first.  The intrinsics have
their documented lane semantics.  Lanes wrap around.  `_mm_add_epi16` keeps a record of the sums
that its lanes have before that, so that one can say that none of them did.

`InLanes m P` says that no lane of an addition in `m` wraps around and that the result
satisfies `P`.
-/

namespace Lib

open Finset

/-- `__m128i`, byte after byte. -/
abbrev M128 := Fin 16 → UInt8

namespace M128

/-- A lane of 16 bits. -/
def word (v : M128) (i : Fin 8) : UInt16 :=
  UInt16.ofNat ((v ⟨2 * i, by omega⟩).toNat + 256 * (v ⟨2 * i + 1, by omega⟩).toNat)

/-- The register with these lanes. -/
def ofWords (w : Fin 8 → UInt16) : M128 := fun k =>
  UInt8.ofNat ((w ⟨k / 2, by omega⟩).toNat / 256 ^ (k.val % 2))

/-- What a computation with registers gives, and the sums in the lanes of its additions. -/
abbrev Lanes := StateM (List Nat)

/-! ## Intrinsics -/

/-- `_mm_setzero_si128`. -/
def setzeroSi128 : M128 := fun _ => 0

/-- `_mm_loadl_epi64`: eight bytes of the memory. -/
def loadlEpi64 (mem : Int → UInt8) (p : Int) : M128 := fun i => if i.val < 8 then mem (p + i) else 0

/-- `_mm_loadh_pd`: eight bytes of the memory become the high half. -/
def loadhPd (v : M128) (mem : Int → UInt8) (p : Int) : M128 := fun i =>
  if i.val < 8 then v i else mem (p + (i.val - 8 : Nat))

/-- `_mm_unpacklo_epi8`: the bytes of the low halves alternate. -/
def unpackloEpi8 (v w : M128) : M128 := fun i =>
  if i.val % 2 = 0 then v ⟨i / 2, by omega⟩ else w ⟨i / 2, by omega⟩

/-- The distance of two bytes. -/
def absDiff (x y : UInt8) : Nat := (x.toNat - y.toNat) + (y.toNat - x.toNat)

/-- `_mm_sad_epu8`: the distances of the bytes, added up in each half. -/
def sadEpu8 (v w : M128) : M128 := ofWords fun i =>
  if i = 0 then UInt16.ofNat (∑ j : Fin 8, absDiff (v ⟨j, by omega⟩) (w ⟨j, by omega⟩))
  else if i = 4 then
    UInt16.ofNat (∑ j : Fin 8, absDiff (v ⟨j + 8, by omega⟩) (w ⟨j + 8, by omega⟩))
  else 0

theorem low_lt (j : Fin 8) : j.val < 16 := by omega

theorem high_lt (j : Fin 8) : j.val + 8 < 16 := by omega

/-- `_mm_srli_si128`: the register moves down by a number of bytes. -/
def srliSi128 (v : M128) (n : Nat) : M128 := fun i => if h : i + n < 16 then v ⟨i + n, h⟩ else 0

/-- `_mm_add_epi16`. -/
def addEpi16 (v w : M128) : Lanes M128 := do
  modify fun sums => sums ++ (List.finRange 8).map fun i => (v.word i).toNat + (w.word i).toNat
  return ofWords fun i => v.word i + w.word i

/-- `_mm_sub_epi16`. -/
def subEpi16 (v w : M128) : M128 := ofWords fun i => v.word i - w.word i

/-- `_mm_max_epi16`, which compares signed numbers. -/
def maxEpi16 (v w : M128) : M128 := ofWords fun i =>
  if (v.word i).toBitVec.toInt < (w.word i).toBitVec.toInt then w.word i else v.word i

/-- `_mm_extract_epi16`. -/
def extractEpi16 (v : M128) (i : Fin 8) : Int := (v.word i).toNat

/-! ## Lanes -/

theorem word_toNat (v : M128) (i : Fin 8) :
    (v.word i).toNat = (v ⟨2 * i, by omega⟩).toNat + 256 * (v ⟨2 * i + 1, by omega⟩).toNat := by
  have hlo := (v ⟨2 * i, by omega⟩).toNat_lt
  have hhi := (v ⟨2 * i + 1, by omega⟩).toNat_lt
  unfold word
  rw [UInt16.toNat_ofNat']
  omega

@[simp] theorem word_ofWords (w : Fin 8 → UInt16) (i : Fin 8) : (ofWords w).word i = w i := by
  apply UInt16.toNat_inj.mp
  have hlt := (w i).toNat_lt
  have hlo : (⟨2 * i.val / 2, by omega⟩ : Fin 8) = i := Fin.ext (by simp)
  have hhi : (⟨(2 * i.val + 1) / 2, by omega⟩ : Fin 8) = i := Fin.ext (by simp; omega)
  have heven : 2 * i.val % 2 = 0 := by omega
  have hodd : (2 * i.val + 1) % 2 = 1 := by omega
  rw [word_toNat]
  simp only [ofWords, hlo, hhi, heven, hodd, UInt8.toNat_ofNat', Nat.pow_zero, Nat.pow_one,
    Nat.div_one]
  omega

theorem word_setzero (i : Fin 8) : setzeroSi128.word i = 0 := rfl

/-- Bytes with zeros between them are words. -/
theorem word_unpacklo_zero (v : M128) (i : Fin 8) :
    ((unpackloEpi8 v setzeroSi128).word i).toNat = (v ⟨i, by omega⟩).toNat := by
  have heven : 2 * i.val % 2 = 0 := by omega
  have hodd : (2 * i.val + 1) % 2 ≠ 0 := by omega
  have hhalf : (⟨2 * i.val / 2, by omega⟩ : Fin 16) = ⟨i, by omega⟩ := Fin.ext (by simp)
  rw [word_toNat]
  simp only [unpackloEpi8, heven, if_true, if_neg hodd, setzeroSi128, hhalf]
  rfl

/-- Words that move down by whole words. -/
theorem word_srli (v : M128) (n : Nat) (i : Fin 8) :
    (srliSi128 v (2 * n)).word i = if h : i + n < 8 then v.word ⟨i + n, h⟩ else 0 := by
  apply UInt16.toNat_inj.mp
  rw [word_toNat]
  unfold srliSi128
  by_cases h : i + n < 8
  · have hlo : 2 * i.val + 2 * n < 16 := by omega
    have hhi : 2 * i.val + 1 + 2 * n < 16 := by omega
    have hlo' : (⟨2 * i.val + 2 * n, hlo⟩ : Fin 16) = ⟨2 * (i.val + n), by omega⟩ :=
      Fin.ext (Nat.mul_add 2 i.val n).symm
    have hhi' : (⟨2 * i.val + 1 + 2 * n, hhi⟩ : Fin 16) = ⟨2 * (i.val + n) + 1, by omega⟩ :=
      Fin.ext (by simp only; omega)
    rw [dif_pos hlo, dif_pos hhi, dif_pos h, word_toNat, hlo', hhi']
  · have hlo : ¬2 * i.val + 2 * n < 16 := by omega
    have hhi : ¬2 * i.val + 1 + 2 * n < 16 := by omega
    rw [dif_neg hlo, dif_neg hhi, dif_neg h]
    rfl

theorem word_srli_le {v : M128} {m : Nat} (hv : ∀ i, (v.word i).toNat ≤ m) (n : Nat) (i : Fin 8) :
    ((srliSi128 v (2 * n)).word i).toNat ≤ m := by
  rw [word_srli]
  split
  · exact hv _
  · exact Nat.zero_le m

theorem absDiff_le (x y : UInt8) : absDiff x y ≤ 255 := by
  have hx := x.toNat_lt
  have hy := y.toNat_lt
  unfold absDiff
  omega

theorem sum_absDiff_le (f g : Fin 8 → UInt8) : ∑ j, absDiff (f j) (g j) ≤ 2040 := by
  calc ∑ j, absDiff (f j) (g j) ≤ ∑ _j : Fin 8, 255 :=
        Finset.sum_le_sum fun j _ => absDiff_le (f j) (g j)
    _ = 2040 := rfl

theorem word_sad_zero (v w : M128) :
    ((sadEpu8 v w).word 0).toNat = ∑ j : Fin 8, absDiff (v ⟨j, by omega⟩) (w ⟨j, by omega⟩) := by
  have hle := sum_absDiff_le (fun j => v ⟨j, by omega⟩) fun j => w ⟨j, by omega⟩
  unfold sadEpu8
  rw [word_ofWords, if_pos rfl, UInt16.toNat_ofNat']
  omega

theorem word_sad_four (v w : M128) :
    ((sadEpu8 v w).word 4).toNat =
      ∑ j : Fin 8, absDiff (v ⟨j + 8, by omega⟩) (w ⟨j + 8, by omega⟩) := by
  have hle := sum_absDiff_le (fun j => v ⟨j + 8, by omega⟩) fun j => w ⟨j + 8, by omega⟩
  unfold sadEpu8
  rw [word_ofWords, if_neg (by decide), if_pos rfl, UInt16.toNat_ofNat']
  omega

theorem word_sad_le (v w : M128) (i : Fin 8) : ((sadEpu8 v w).word i).toNat ≤ 2040 := by
  by_cases h0 : i = 0
  · subst h0
    rw [word_sad_zero]
    exact sum_absDiff_le (fun j => v ⟨j, by omega⟩) fun j => w ⟨j, by omega⟩
  · by_cases h4 : i = 4
    · subst h4
      rw [word_sad_four]
      exact sum_absDiff_le (fun j => v ⟨j + 8, by omega⟩) fun j => w ⟨j + 8, by omega⟩
    · unfold sadEpu8
      rw [word_ofWords, if_neg h0, if_neg h4]
      decide

/-- The signed number in a lane. -/
def Holds (w : UInt16) (x : Int) : Prop := w.toNat % 65536 = x % 65536

theorem Holds.sub {v w : UInt16} {x y : Int} (hv : Holds v x) (hw : Holds w y) :
    Holds (v - w) (x - y) := by
  have hlt := w.toNat_lt
  unfold Holds at *
  rw [UInt16.toNat_sub]
  omega

theorem toInt_eq (w : UInt16) :
    w.toBitVec.toInt = if w.toNat < 32768 then (w.toNat : Int) else w.toNat - 65536 := by
  rw [BitVec.toInt_eq_toNat_cond]
  change (if 2 * w.toNat < 2 ^ 16 then (w.toNat : Int) else w.toNat - (2 ^ 16 : Nat)) = _
  split <;> split <;> omega

/-- The larger one of a number and its negative. -/
theorem word_max_neg {v : M128} {i : Fin 8} {x : Int} (h : Holds (v.word i) x)
    (hlo : -32768 < x) (hhi : x < 32768) :
    ((maxEpi16 (subEpi16 setzeroSi128 v) v).word i).toNat = x.natAbs := by
  have hlt := (v.word i).toNat_lt
  have hneg : (0 - v.word i).toNat = (65536 - (v.word i).toNat) % 65536 := by
    rw [UInt16.toNat_sub]
    simp
  unfold Holds at h
  unfold maxEpi16 subEpi16
  simp only [word_ofWords, word_setzero, toInt_eq, hneg]
  split_ifs <;> omega

/-! ## Additions -/

variable {α β : Type}

/-- No lane of an addition in `m` wraps around, and the result satisfies `P`. -/
def InLanes (m : Lanes α) (P : α → Prop) : Prop :=
  ∀ sums, (∀ n ∈ sums, n < 65536) → P (m sums).1 ∧ ∀ n ∈ (m sums).2, n < 65536

theorem InLanes.pure {P : α → Prop} {a : α} (h : P a) : InLanes (Pure.pure a) P :=
  fun _ hsums => ⟨h, hsums⟩

theorem InLanes.bind {m : Lanes α} {f : α → Lanes β} {P : α → Prop} {Q : β → Prop}
    (hm : InLanes m P) (hf : ∀ a, P a → InLanes (f a) Q) : InLanes (m >>= f) Q := by
  intro sums hsums
  obtain ⟨hP, hnext⟩ := hm sums hsums
  exact hf _ hP _ hnext

/-- An addition whose lanes have room. -/
theorem InLanes.add {v w : M128} (h : ∀ i, (v.word i).toNat + (w.word i).toNat < 65536) :
    InLanes (addEpi16 v w) fun r => ∀ i,
      (r.word i).toNat = (v.word i).toNat + (w.word i).toNat := by
  intro sums hsums
  refine ⟨fun i => ?_, fun n hn => ?_⟩
  · change ((ofWords fun i => v.word i + w.word i).word i).toNat = _
    rw [word_ofWords, UInt16.toNat_add]
    exact Nat.mod_eq_of_lt (h i)
  · change n ∈ sums ++ (List.finRange 8).map _ at hn
    cases List.mem_append.mp hn with
    | inl hold => exact hsums n hold
    | inr hnew =>
      obtain ⟨i, -, rfl⟩ := List.mem_map.mp hnew
      exact h i

end M128

end Lib
