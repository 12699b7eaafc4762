import MPlayer.Mkv.Lacing

/-!
# EBML numbers read back

What the readers of variable-length numbers give on every sequence of bytes.  Every first
byte but zero, with the bytes it asks for, is the code of a number (`exists_vlen`), so it is
enough to know the readers on codes.  The largest number of each length is the one that
stands for no number.

`ebml_read_vlen_int` takes its bias from a shifted `int`, which is too narrow from five bytes
on.
-/

namespace MPlayer

open Lib

/-! ## The largest number of a length -/

variable {w n : Nat} {b : UInt8} {rest : List UInt8} {r : Reader}

/-- The largest number of each length is refused. -/
theorem ebmlNumber_ones (hw : w < 8) (hn : n + 1 = 2 ^ (7 * (w + 1)))
    (hb : b.toNat = 2 ^ (7 - w) + n / 256 ^ w) (htop : n / 256 ^ w < 2 ^ (7 - w)) :
    ebmlNumber b w (beBytes w n) = ebmlUintInvalid := by
  have hmod : b.toNat % 2 ^ (7 - w) = n / 256 ^ w := by
    rw [hb, Nat.add_mod_left, Nat.mod_eq_of_lt htop]
  have hpos : 0 < 256 ^ w := Nat.pow_pos (by decide)
  have hfirst : n / 256 ^ w = 2 ^ (7 - w) - 1 := by
    have hsucc : (n + 1) / 256 ^ w ≤ n / 256 ^ w + 1 := by
      rw [← Nat.add_div_right n hpos]
      exact Nat.div_le_div_right (by omega)
    rw [hn, pow_vlen hw, Nat.mul_div_cancel _ hpos] at hsucc
    omega
  have hrest : n % 256 ^ w + 1 = 256 ^ w := by
    have hdiv := Nat.div_add_mod n (256 ^ w)
    have hlt := Nat.mod_lt n hpos
    rw [hfirst, Nat.mul_sub, Nat.mul_one, Nat.mul_comm] at hdiv
    rw [pow_vlen hw] at hn
    have hle : 256 ^ w ≤ 2 ^ (7 - w) * 256 ^ w :=
      Nat.le_mul_of_pos_left _ (Nat.pow_pos (by decide))
    omega
  have hones : w + 1 = (if n / 256 ^ w = 2 ^ (7 - w) - 1 then 1 else 0) +
      (beBytes w n).count 255 := by
    rw [if_pos hfirst, (count_beBytes w n).mpr hrest, Nat.add_comm]
  simp only [ebmlNumber, hmod, if_pos hones]

/-- What the readers make of the code of a number: the number itself, but for the largest. -/
def vlenValue (w n : Nat) : Nat := if n + 1 = 2 ^ (7 * w) then ebmlUintInvalid else n

theorem ebmlNumber_code (hw : w < 8) (hn : n < 2 ^ (7 * (w + 1)))
    (hb : b.toNat = 2 ^ (7 - w) + n / 256 ^ w) (htop : n / 256 ^ w < 2 ^ (7 - w)) :
    ebmlNumber b w (beBytes w n) = vlenValue (w + 1) n := by
  rw [vlenValue]
  split
  case isTrue hlast => exact ebmlNumber_ones hw hlast hb htop
  case isFalse hlast => exact ebmlNumber_vlen hw (by omega) hb htop

theorem vlenValue_invalid (hw : w ≤ 8) (hn : n < 2 ^ (7 * w)) :
    vlenValue w n = ebmlUintInvalid ↔ n + 1 = 2 ^ (7 * w) := by
  have hpow : 2 ^ (7 * w) ≤ 2 ^ 56 := Nat.pow_le_pow_right (by decide) (by omega)
  rw [vlenValue]
  split
  case isTrue hlast => exact ⟨fun _ => hlast, fun _ => rfl⟩
  case isFalse hlast =>
    refine ⟨fun heq => ?_, fun h => absurd h hlast⟩
    simp only [ebmlUintInvalid] at heq
    omega

/-! ## The readers on any bytes -/

/-- A sequence of bytes begins with zero, ends inside its first number, or begins with a
number. -/
inductive Begins : List UInt8 → Prop
  | zero (rest : List UInt8) : Begins (0 :: rest)
  | short {b : UInt8} {rest : List UInt8} (hw : leadingZeros 8 b < 8)
      (h : rest.length < leadingZeros 8 b) : Begins (b :: rest)
  | number {w n : Nat} (hw : w < 8) (hn : n < 2 ^ (7 * (w + 1))) (rest : List UInt8) :
      Begins (vlen (w + 1) n ++ rest)

theorem begins (b : UInt8) (rest : List UInt8) : Begins (b :: rest) := by
  by_cases hw : leadingZeros 8 b < 8
  · by_cases hlen : rest.length < leadingZeros 8 b
    · exact .short hw hlen
    · have htake : (rest.take (leadingZeros 8 b)).length = leadingZeros 8 b :=
        List.length_take_of_le (Nat.not_lt.mp hlen)
      obtain ⟨n, hn, hvlen⟩ := exists_vlen htake.symm (by rw [htake]; exact hw)
      rw [htake] at hn hvlen
      have heq : b :: rest = vlen (leadingZeros 8 b + 1) n ++ rest.drop (leadingZeros 8 b) := by
        rw [← hvlen, List.cons_append, List.take_append_drop]
      rw [heq]
      exact .number hw hn _
  · rw [leadingZeros_eq_zero.mp (Nat.not_lt.mp hw)]
    exact .zero rest

theorem ebmlReadVlenUint_zero (rest : List UInt8) :
    ebmlReadVlenUint (0 :: rest) = some (ebmlUintInvalid, none) := by
  rw [ebmlReadVlenUint]
  simp only [if_pos (leadingZeros_eq_zero.mpr rfl)]

theorem ebmlReadVlenUint_short (hw : leadingZeros 8 b < 8) (h : rest.length < leadingZeros 8 b) :
    ebmlReadVlenUint (b :: rest) = none := by
  rw [ebmlReadVlenUint]
  simp only [if_neg (Nat.not_le.mpr hw), if_pos h]

theorem ebmlReadVlenUint_code (hw : w < 8) (hn : n < 2 ^ (7 * (w + 1))) (rest : List UInt8) :
    ebmlReadVlenUint (vlen (w + 1) n ++ rest) = some (vlenValue (w + 1) n, some (w + 1)) := by
  obtain ⟨b, hvlen, hb, htop⟩ := vlen_succ hw hn
  have hlead : leadingZeros 8 b = w := leadingZeros_first hw (Nat.le_refl _) hb htop
  have hlen : ¬ (beBytes w n ++ rest).length < w := by simp
  rw [hvlen, List.cons_append, ebmlReadVlenUint]
  simp only [hlead, if_neg (Nat.not_le.mpr hw), if_neg hlen]
  rw [List.take_left' (length_beBytes w n), ebmlNumber_code hw hn hb htop]

theorem ebmlReadLength_zero (hr : r.rest = 0 :: rest) :
    ebmlReadLength r = ((ebmlUintInvalid, none), r.skip 1) := by
  rw [ebmlReadLength, hr]
  simp only [if_pos (leadingZeros_eq_zero.mpr rfl)]

theorem ebmlReadLength_code (hw : w < 8) (hn : n < 2 ^ (7 * (w + 1)))
    (hr : r.rest = vlen (w + 1) n ++ rest) :
    ebmlReadLength r = ((vlenValue (w + 1) n, some (w + 1)), r.skip (w + 1)) := by
  obtain ⟨b, hvlen, hb, htop⟩ := vlen_succ hw hn
  have hlead : leadingZeros 8 b = w := leadingZeros_first hw (Nat.le_refl _) hb htop
  have hlen : ¬ (beBytes w n ++ rest).length < w := by simp
  rw [hvlen, List.cons_append] at hr
  rw [ebmlReadLength, hr]
  simp only [hlead, if_neg (Nat.not_le.mpr hw), if_neg hlen]
  rw [List.take_left' (length_beBytes w n), ebmlNumber_code hw hn hb htop]

/-- The bytes begin with a number whose data bits are all one. -/
def AllOnes (buffer : List UInt8) : Prop :=
  ∃ l rest, 1 ≤ l ∧ l ≤ 8 ∧ buffer = vlen l (2 ^ (7 * l) - 1) ++ rest

/-- Codes that begin the same bytes have one length and one number. -/
theorem vlen_append_inj {w' n' : Nat} {rest' : List UInt8} (hw : w < 8) (hw' : w' < 8)
    (hn : n < 2 ^ (7 * (w + 1))) (hn' : n' < 2 ^ (7 * (w' + 1)))
    (h : vlen (w + 1) n ++ rest = vlen (w' + 1) n' ++ rest') : w = w' ∧ n = n' := by
  have hread := ebmlReadVlenUint_code hw hn rest
  rw [h, ebmlReadVlenUint_code hw' hn' rest'] at hread
  have hlen : w = w' := by
    have := Option.some.inj (Prod.mk.inj (Option.some.inj hread)).2
    omega
  subst hlen
  have hcode : vlen (w + 1) n = vlen (w + 1) n' :=
    (List.append_inj h (by rw [length_vlen, length_vlen])).1
  have hval := congrArg (beValue 0) hcode
  have hpow : 2 * 2 ^ (7 * (w + 1)) ≤ 256 ^ (w + 1) := by
    rw [← Nat.pow_succ', show (256 : Nat) = 2 ^ 8 from rfl, ← Nat.pow_mul]
    exact Nat.pow_le_pow_right (by decide) (by omega)
  rw [vlen, vlen, beValue_beBytes, beValue_beBytes, Nat.mod_eq_of_lt (by omega),
    Nat.mod_eq_of_lt (by omega)] at hval
  exact ⟨rfl, by omega⟩

theorem ebmlReadVlenUint_invalid {buffer : List UInt8} {l : Option Nat}
    (h : ebmlReadVlenUint buffer = some (n, l)) :
    n = ebmlUintInvalid ↔ buffer.head? = some 0 ∨ AllOnes buffer := by
  cases buffer with
  | nil => cases h
  | cons b rest =>
    generalize hb : b :: rest = buffer at h
    have hbegins : Begins buffer := hb ▸ begins b rest
    clear hb
    cases hbegins with
    | zero rest =>
      rw [ebmlReadVlenUint_zero] at h
      cases h
      exact ⟨fun _ => Or.inl rfl, fun _ => rfl⟩
    | short hw hlen =>
      rw [ebmlReadVlenUint_short hw hlen] at h
      cases h
    | @number w m hw hm rest =>
      rw [ebmlReadVlenUint_code hw hm] at h
      cases h
      rw [vlenValue_invalid (by omega) hm]
      constructor
      · intro hlast
        refine Or.inr ⟨w + 1, rest, by omega, by omega, ?_⟩
        rw [← hlast, Nat.add_sub_cancel]
      · rintro (hzero | ⟨l, rest', hl, hl8, heq⟩)
        · obtain ⟨c, hvlen, hc, -⟩ := vlen_succ hw hm
          rw [hvlen, List.cons_append, List.head?_cons, Option.some.injEq] at hzero
          have hpos : 0 < 2 ^ (7 - w) := Nat.pow_pos (by decide)
          rw [hzero] at hc
          exact absurd hc (Nat.ne_of_lt (Nat.add_pos_left hpos _))
        · obtain ⟨k, rfl⟩ : ∃ k, l = k + 1 := ⟨l - 1, by omega⟩
          have hpos : 0 < 2 ^ (7 * (k + 1)) := Nat.pow_pos (by decide)
          obtain ⟨rfl, rfl⟩ := vlen_append_inj hw hl8 hm (by omega) heq
          exact Nat.sub_add_cancel hpos

/-- The two readers of unsigned numbers agree. -/
theorem ebmlReadLength_eq {l : Option Nat} (h : ebmlReadVlenUint r.rest = some (n, l)) :
    ebmlReadLength r = ((n, l), r.skip (l.getD 1)) := by
  cases hr : r.rest with
  | nil =>
    rw [hr] at h
    cases h
  | cons b rest =>
    generalize hb : b :: rest = buffer at hr
    have hbegins : Begins buffer := hb ▸ begins b rest
    clear hb
    rw [hr] at h
    cases hbegins with
    | zero rest =>
      rw [ebmlReadVlenUint_zero] at h
      cases h
      exact ebmlReadLength_zero hr
    | short hw hlen =>
      rw [ebmlReadVlenUint_short hw hlen] at h
      cases h
    | number hw hn rest =>
      rw [ebmlReadVlenUint_code hw hn] at h
      cases h
      exact ebmlReadLength_code hw hn hr

/-! ## Exactness -/

theorem coded_of_le {l v : Nat} (hl : 1 ≤ l) (hl8 : l ≤ 8) (hv : v ≤ 2 ^ (7 * l) - 2) :
    Coded l v := by
  have hpow : 2 ^ 7 ≤ 2 ^ (7 * l) := Nat.pow_le_pow_right (by decide) (by omega)
  exact ⟨hl, hl8, by omega⟩

/-- The signed numbers that `l` bytes can hold have a number that `l` bytes can hold. -/
theorem ebmlDiff_coded {l : Nat} {v : Int} (hl : 1 ≤ l) (hl8 : l ≤ 8)
    (hlo : -(2 ^ (7 * l - 1) - 1) ≤ v) (hhi : v ≤ 2 ^ (7 * l - 1) - 1) :
    0 ≤ v + 2 ^ (7 * l - 1) - 1 ∧ Coded l (ebmlDiff l v) := by
  have hnonneg : 0 ≤ v + 2 ^ (7 * l - 1) - 1 := by omega
  have hpow : (2 : Int) ^ (7 * l) = 2 * 2 ^ (7 * l - 1) := by
    rw [← Int.pow_succ', show 7 * l - 1 + 1 = 7 * l by omega]
  have hcast : ((2 ^ (7 * l) : Nat) : Int) = 2 ^ (7 * l) := Int.natCast_pow 2 (7 * l)
  refine ⟨hnonneg, hl, hl8, ?_⟩
  have hval : ((ebmlDiff l v : Nat) : Int) = v + 2 ^ (7 * l - 1) - 1 :=
    Int.toNat_of_nonneg hnonneg
  omega

/-- Unsigned numbers of every length are read back, exactly the bytes that stand for no number
are refused, and both readers agree; signed numbers of `l` bytes are read back if and only if
`l` is at most four. -/
theorem ebml_numbers_exact (l : Nat) (hl : 1 ≤ l) (hl8 : l ≤ 8) :
    (∀ (v : Nat) (rest : List UInt8), v ≤ 2 ^ (7 * l) - 2 →
      ebmlReadVlenUint (vlen l v ++ rest) = some (v, some l)) ∧
    (∀ (buffer : List UInt8) (n : Nat) (m : Option Nat), ebmlReadVlenUint buffer = some (n, m) →
      (n = ebmlUintInvalid ↔ buffer.head? = some 0 ∨ AllOnes buffer)) ∧
    (∀ (r : Reader) (n : Nat) (m : Option Nat), ebmlReadVlenUint r.rest = some (n, m) →
      ebmlReadLength r = ((n, m), r.skip (m.getD 1))) ∧
    ∀ (v : Int) (rest : List UInt8), -(2 ^ (7 * l - 1) - 1) ≤ v → v ≤ 2 ^ (7 * l - 1) - 1 →
      (ebmlReadVlenInt (vlen l (v + 2 ^ (7 * l - 1) - 1).toNat ++ rest) = some (v, some l) ↔
        l ≤ 4) := by
  refine ⟨fun v rest hv => ebmlReadVlenUint_vlen (coded_of_le hl hl8 hv) rest,
    fun buffer n m h => ebmlReadVlenUint_invalid h, fun r n m h => ebmlReadLength_eq h,
    fun v rest hlo hhi => ?_⟩
  obtain ⟨hnonneg, hcoded⟩ := ebmlDiff_coded hl hl8 hlo hhi
  have hread := ebmlReadVlenInt_diff hnonneg hcoded rest
  rw [ebmlDiff] at hread
  rw [hread]
  by_cases h4 : l ≤ 4
  · rw [if_pos h4]
    exact ⟨fun _ => h4, fun _ => rfl⟩
  · rw [if_neg h4]
    exact ⟨fun h => absurd h (by simp), fun h => absurd h h4⟩

theorem ebml_numbers_exact_two :
    ebmlReadVlenUint (vlen 2 300 ++ []) = some (300, some 2) ∧
    (300 = ebmlUintInvalid ↔ (vlen 2 300).head? = some 0 ∨ AllOnes (vlen 2 300)) ∧
    (ebmlReadVlenInt (vlen 2 (-3 + 2 ^ (7 * 2 - 1) - 1 : Int).toNat ++ []) = some (-3, some 2) ↔
      2 ≤ 4) := by
  obtain ⟨huint, hinvalid, -, hint⟩ := ebml_numbers_exact 2 (by decide) (by decide)
  exact ⟨huint 300 [] (by decide), hinvalid (vlen 2 300) 300 (some 2) (by decide),
    hint (-3) [] (by decide) (by decide)⟩

/-- A signed number of five bytes is not read: its bias is one shifted by 34 bits. -/
theorem five_byte_signed_unread :
    ¬ ∀ (l : Nat) (v : Int) (rest : List UInt8), 1 ≤ l → l ≤ 8 →
      -(2 ^ (7 * l - 1) - 1) ≤ v → v ≤ 2 ^ (7 * l - 1) - 1 →
        ebmlReadVlenInt (vlen l (v + 2 ^ (7 * l - 1) - 1).toNat ++ rest) = some (v, some l) := by
  intro h
  have hnone : ebmlReadVlenInt (vlen 5 ((0 : Int) + 2 ^ (7 * 5 - 1) - 1).toNat ++ []) = none := by
    decide
  have hsome := h 5 0 [] (by decide) (by decide) (by decide) (by decide)
  rw [hnone] at hsome
  cases hsome

end MPlayer
