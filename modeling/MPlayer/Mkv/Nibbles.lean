import MPlayer.Mkv.RealAudio
import Mathlib.Logic.Equiv.Basic

/-!
# The nibbles of `sipr`

The reordering of `sipr` swaps runs of nibbles in place.  It moves each nibble to where a
permutation says, which does not depend on the nibbles (`siprReorder_follows`).
-/

namespace MPlayer

open Lib

/-! ## The nibbles of a byte -/

/-- The two halves of a byte. -/
theorem byte_parts : ∀ b < 256, UInt8.ofNat b &&& 0x0F = UInt8.ofNat (b % 16) ∧
    UInt8.ofNat b &&& 0xF0 = UInt8.ofNat (16 * (b / 16)) ∧
    UInt8.ofNat b >>> (4 : UInt8) = UInt8.ofNat (b / 16) := by
  decide +kernel

/-- A nibble is put into the high half. -/
theorem with_high : ∀ low < 16, ∀ x < 16,
    (UInt8.ofNat low ||| UInt8.ofNat x <<< (4 : UInt8)) >>> (4 : UInt8) = UInt8.ofNat x ∧
      (UInt8.ofNat low ||| UInt8.ofNat x <<< (4 : UInt8)) &&& 0x0F = UInt8.ofNat low := by
  decide +kernel

/-- A nibble is put into the low half. -/
theorem with_low : ∀ high < 16, ∀ x < 16,
    (UInt8.ofNat (16 * high) ||| UInt8.ofNat x) >>> (4 : UInt8) = UInt8.ofNat high ∧
      (UInt8.ofNat (16 * high) ||| UInt8.ofNat x) &&& 0x0F = UInt8.ofNat x := by
  decide

theorem byteNibble_small : ∀ b < 256, ∀ p < 2, byteNibble (UInt8.ofNat b) p < 16 := by
  decide +kernel

theorem byteWithNibble_small : ∀ p < 2, ∀ q < 2, ∀ b < 256, ∀ x < 16,
    byteNibble (byteWithNibble (UInt8.ofNat b) p (UInt8.ofNat x)) q =
      if q = p then UInt8.ofNat x else byteNibble (UInt8.ofNat b) q := by
  intro p hp q hq b hb x hx
  obtain ⟨hlow, hhigh, hshift⟩ := byte_parts b hb
  obtain ⟨hsetHigh, hkeepLow⟩ := with_high (b % 16) (Nat.mod_lt b (by decide)) x hx
  obtain ⟨hkeepHigh, hsetLow⟩ := with_low (b / 16) (by omega) x hx
  match p, q, hp, hq with
  | 0, 0, _, _ =>
    change (UInt8.ofNat b &&& 0xF0 ||| UInt8.ofNat x) &&& 0x0F = UInt8.ofNat x
    rw [hhigh, hsetLow]
  | 0, 1, _, _ =>
    change (UInt8.ofNat b &&& 0xF0 ||| UInt8.ofNat x) >>> (4 : UInt8) =
      UInt8.ofNat b >>> (4 : UInt8)
    rw [hhigh, hkeepHigh, hshift]
  | 1, 0, _, _ =>
    change (UInt8.ofNat b &&& 0x0F ||| UInt8.ofNat x <<< (4 : UInt8)) &&& 0x0F =
      UInt8.ofNat b &&& 0x0F
    rw [hlow, hkeepLow]
  | 1, 1, _, _ =>
    change (UInt8.ofNat b &&& 0x0F ||| UInt8.ofNat x <<< (4 : UInt8)) >>> (4 : UInt8) =
      UInt8.ofNat x
    rw [hlow, hsetHigh]

theorem byteNibble_mod (b : UInt8) (i : Nat) : byteNibble b (i % 2) = byteNibble b i := by
  rw [byteNibble, byteNibble, Nat.mod_mod]

theorem byteWithNibble_mod (b : UInt8) (i : Nat) (x : UInt8) :
    byteWithNibble b (i % 2) x = byteWithNibble b i x := by
  rw [byteWithNibble, byteWithNibble, Nat.mod_mod]

theorem byteNibble_lt (b : UInt8) (i : Nat) : byteNibble b i < 16 := by
  have h := byteNibble_small b.toNat b.toNat_lt (i % 2) (Nat.mod_lt i Nat.two_pos)
  rwa [UInt8.ofNat_toNat, byteNibble_mod] at h

/-- Setting a nibble leaves the other one as it is. -/
theorem byteNibble_byteWithNibble (b : UInt8) (i j : Nat) {x : UInt8} (hx : x < 16) :
    byteNibble (byteWithNibble b i x) j = if j % 2 = i % 2 then x else byteNibble b j := by
  have h := byteWithNibble_small (i % 2) (Nat.mod_lt i Nat.two_pos) (j % 2)
    (Nat.mod_lt j Nat.two_pos) b.toNat b.toNat_lt x.toNat (UInt8.lt_iff_toNat_lt.mp hx)
  rwa [UInt8.ofNat_toNat, UInt8.ofNat_toNat, byteNibble_mod, byteNibble_mod,
    byteWithNibble_mod] at h

/-! ## The nibbles of a buffer -/

/-- The nibble `i` of the buffer, and 0 behind it. -/
def nibble (buf : List UInt8) (i : Nat) : UInt8 := byteNibble (buf[i / 2]?.getD 0) i

theorem nibble_lt (buf : List UInt8) (i : Nat) : nibble buf i < 16 := byteNibble_lt _ i

theorem getNibble_ok {buf : List UInt8} {i : Nat} (hi : i < 2 * buf.length) :
    getNibble buf i = .ok (nibble buf i) := by
  have hlt : i / 2 < buf.length := by omega
  rw [getNibble, nibble, List.getElem?_eq_getElem hlt]
  rfl

/-- A nibble is set and no other one. -/
theorem setNibble_ok {buf : List UInt8} {i : Nat} {x : UInt8} (hi : i < 2 * buf.length)
    (hx : x < 16) : ∃ res, setNibble buf i x = .ok res ∧ res.length = buf.length ∧
      ∀ k, nibble res k = if k = i then x else nibble buf k := by
  have hlt : i / 2 < buf.length := by omega
  rw [setNibble, List.getElem?_eq_getElem hlt]
  refine ⟨_, rfl, List.length_set, fun k => ?_⟩
  rw [nibble, nibble, List.getElem?_set]
  by_cases hbyte : i / 2 = k / 2
  · rw [if_pos hbyte, if_pos hlt, Option.getD_some, byteNibble_byteWithNibble _ _ _ hx, ← hbyte,
      List.getElem?_eq_getElem hlt, Option.getD_some]
    by_cases hk : k = i
    · rw [if_pos (congrArg (· % 2) hk), if_pos hk]
    · rw [if_neg fun hmod => hk (by omega), if_neg hk]
  · rw [if_neg hbyte, if_neg fun hk => hbyte (congrArg (· / 2) hk.symm)]

/-! ## The reordering -/

/-- A buffer has the nibbles of another one where the permutation says. -/
structure Reordered (buf : List UInt8) (σ : Equiv.Perm Nat) (res : List UInt8) : Prop where
  length : res.length = buf.length
  nibbles : ∀ k, nibble res k = nibble buf (σ k)
  fixes : ∀ k, 2 * buf.length ≤ k → σ k = k

theorem Reordered.refl (buf : List UInt8) : Reordered buf (Equiv.refl Nat) buf :=
  ⟨rfl, fun _ => rfl, fun _ _ => rfl⟩

/-- Two nibbles change their places. -/
theorem Reordered.swap {buf res : List UInt8} {σ : Equiv.Perm Nat} (h : Reordered buf σ res)
    {i o : Nat} (hi : i < 2 * buf.length) (ho : o < 2 * buf.length) :
    ∃ res', swapNibbles res i o = .ok res' ∧ Reordered buf ((Equiv.swap i o).trans σ) res' := by
  rw [← h.length] at hi ho
  obtain ⟨mid, hmid, hmidlen, hmidnib⟩ := setNibble_ok ho (nibble_lt res i)
  obtain ⟨res', hres, hlen, hnib⟩ := setNibble_ok (hmidlen ▸ hi) (nibble_lt res o)
  refine ⟨res', ?_, hlen.trans (hmidlen.trans h.length), fun k => ?_, fun k hk => ?_⟩
  · rw [swapNibbles, getNibble_ok hi, getNibble_ok ho, ok_bind, ok_bind, hmid, ok_bind, hres]
  · rw [hnib, hmidnib, Equiv.trans_apply, ← h.nibbles, Equiv.swap_apply_def]
    split
    · rfl
    · split
      · rfl
      · rfl
  · rw [← h.length] at hk
    rw [Equiv.trans_apply, Equiv.swap_apply_of_ne_of_ne (by omega) (by omega),
      h.fixes k (h.length ▸ hk)]

/-- The permutation of one row of `sipr_swaps`. -/
def siprSwap (bs : Nat) (σ : Equiv.Perm Nat) (n : Nat × Nat) : Equiv.Perm Nat :=
  (List.range bs).foldl (fun σ j => (Equiv.swap (bs * n.1 + j) (bs * n.2 + j)).trans σ) σ

/-- The permutation of the reordering. -/
def siprPerm (bs : Nat) : Equiv.Perm Nat := siprSwaps.foldl (siprSwap bs) (Equiv.refl Nat)

theorem siprSwaps_lt : ∀ n ∈ siprSwaps, n.1 < 96 ∧ n.2 < 96 := by decide

/-- A place in run `n` is inside of the buffer. -/
theorem run_lt {bs n j len : Nat} (h : bs * 96 ≤ len) (hn : n < 96) (hj : j < bs) :
    bs * n + j < len := by
  calc bs * n + j < bs * n + bs := Nat.add_lt_add_left hj _
    _ = bs * (n + 1) := (Nat.mul_succ _ _).symm
    _ ≤ bs * 96 := Nat.mul_le_mul_left bs hn
    _ ≤ len := h

/-- The swaps of `sipr` make a permutation. -/
theorem siprReorder_follows {bs : Nat} {buf : List UInt8} (h : bs * 96 ≤ 2 * buf.length) :
    ∃ res, siprReorder bs buf = .ok res ∧ Reordered buf (siprPerm bs) res := by
  refine foldlM_follows (R := Reordered buf) ?_ (Reordered.refl buf)
  intro n hn σ mid hmid
  obtain ⟨h1, h2⟩ := siprSwaps_lt n hn
  refine foldlM_follows (R := Reordered buf) ?_ hmid
  intro j hj σ mid hmid
  have hj := List.mem_range.mp hj
  exact hmid.swap (run_lt h h1 hj) (run_lt h h2 hj)

end MPlayer
