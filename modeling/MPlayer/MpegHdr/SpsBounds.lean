import MPlayer.MpegHdr.Sps

/-!
# Reads outside the buffer of a parameter set

`h264_parse_sps` checks no read: it fills 4096 bytes behind the input with ones, so that a code
there takes one bit, and reads a bounded number of codes.  Only the offsets of a picture order
count cycle are as many as the input says.  Every read is inside the buffer exactly if these end
154 bits before its end (`h264ParseSps_inside_iff`): that is what the parser reads behind them
where all bits are ones.
-/

namespace MPlayer.MpegHdr

open Lib

/-! ## Reading near the end -/

/-- Bits inside of the buffer are read. -/
theorem mpGetbits_room {buf : List UInt8} {n len : Nat} (h : n + len ≤ 8 * buf.length)
    (hpos : 0 < len) (h8 : len ≤ 8) : ∃ v, mpGetbits buf n len = some v := by
  have hlen : (((bytesBits buf).drop n).take len).length = len := by
    rw [List.length_take, List.length_drop, length_bytesBits]
    omega
  have hread := @mpGetbits_eq buf n (((bytesBits buf).drop n).take len)
    (List.take_prefix _ _) (List.ne_nil_of_length_pos (by omega)) (by omega)
  rw [hlen] at hread
  exact ⟨_, hread⟩

variable {n : Nat}

/-- Bits that are read are inside of the buffer. -/
theorem le_of_mpGetbits {buf : List UInt8} {len v : Nat} (h : mpGetbits buf n len = some v)
    (hpos : 0 < len) (h8 : len ≤ 8) : n + len ≤ 8 * buf.length := by
  rw [mpGetbits_def] at h
  obtain ⟨b, hb, h⟩ := Option.bind_eq_some_iff.1 h
  obtain ⟨hlt, -⟩ := List.getElem?_eq_some_iff.1 hb
  split at h
  · obtain ⟨b', hb', -⟩ := Option.bind_eq_some_iff.1 h
    obtain ⟨hlt', -⟩ := List.getElem?_eq_some_iff.1 hb'
    omega
  · omega

/-- A bit of the buffer, with ones behind its end. -/
def bitAt (buf : List UInt8) (n : Nat) : Bool := (bytesBits buf)[n]?.getD true

theorem mpGetbits_bitAt {buf : List UInt8} (h : n < 8 * buf.length) :
    mpGetbits buf n 1 = some (bitAt buf n).toNat := by
  rw [← length_bytesBits] at h
  refine mpGetbits_bit ⟨(bytesBits buf).drop (n + 1), ?_⟩
  rw [List.drop_eq_getElem_cons h, bitAt, List.getElem?_eq_getElem h]
  rfl

theorem mpGetbits_none {buf : List UInt8} (h : 8 * buf.length ≤ n) : mpGetbits buf n 1 = none := by
  cases hread : mpGetbits buf n 1 with
  | none => rfl
  | some v =>
    have := le_of_mpGetbits hread (by decide) (by decide)
    omega

/-! ## Where codes end -/

/-- The zeros from a position on, up to a number of them. -/
def zerosFrom (buf : List UInt8) : Nat → Nat → Nat
  | 0, _ => 0
  | k + 1, n => if bitAt buf n then 0 else zerosFrom buf k (n + 1) + 1

/-- The end of the exp-Golomb code at a position. -/
def codeEnd (buf : List UInt8) (n : Nat) : Nat := n + 2 * zerosFrom buf 31 n + 1

/-- The end of a number of codes. -/
def codesEnd (buf : List UInt8) : Nat → Nat → Nat
  | 0, n => n
  | k + 1, n => codesEnd buf k (codeEnd buf n)

theorem zerosFrom_le (buf : List UInt8) (k n : Nat) : zerosFrom buf k n ≤ k := by
  induction k generalizing n with
  | zero => exact Nat.le_refl 0
  | succ k ih =>
    have := ih (n + 1)
    rw [zerosFrom]
    split <;> omega

theorem lt_codeEnd (buf : List UInt8) (n : Nat) : n < codeEnd buf n := by
  unfold codeEnd
  omega

/-- A code has up to 63 bits. -/
theorem codeEnd_le (buf : List UInt8) (n : Nat) : codeEnd buf n ≤ n + 63 := by
  have := zerosFrom_le buf 31 n
  unfold codeEnd
  omega

theorem add_le_codesEnd (buf : List UInt8) (k n : Nat) : n + k ≤ codesEnd buf k n := by
  induction k generalizing n with
  | zero => exact Nat.le_refl n
  | succ k ih =>
    have h1 := ih (codeEnd buf n)
    have h2 := lt_codeEnd buf n
    rw [codesEnd]
    omega

theorem codesEnd_le (buf : List UInt8) (k n : Nat) : codesEnd buf k n ≤ n + 63 * k := by
  induction k generalizing n with
  | zero => exact Nat.le_refl n
  | succ k ih =>
    have h1 := ih (codeEnd buf n)
    have h2 := codeEnd_le buf n
    rw [codesEnd]
    omega

/-- The first loop ends behind the marker, if that is in the buffer. -/
theorem golombZeros_iff {buf : List UInt8} {k n : Nat} {r : Nat × Nat} :
    golombZeros buf k n = some r ↔
      n + zerosFrom buf k n < 8 * buf.length ∧
        r = (zerosFrom buf k n, n + zerosFrom buf k n + 1) := by
  induction k generalizing n r with
  | zero =>
    rw [golombZeros, zerosFrom]
    by_cases hn : n < 8 * buf.length
    · simp [mpGetbits_bitAt hn, hn, eq_comm]
    · simp [mpGetbits_none (Nat.le_of_not_lt hn), hn]
  | succ k ih =>
    rw [golombZeros, zerosFrom]
    by_cases hn : n < 8 * buf.length
    · rw [mpGetbits_bitAt hn]
      cases hb : bitAt buf n with
      | true => simp [hn, eq_comm]
      | false =>
        simp only [Option.bind_eq_bind, Option.bind_some, Bool.toNat_false, if_true,
          Option.bind_eq_some_iff, ih, Bool.false_eq_true, if_false]
        constructor
        · rintro ⟨_, ⟨hlt, rfl⟩, heq⟩
          simp only [Option.pure_def, Option.some_inj] at heq
          exact ⟨by omega, by rw [← heq]; simp only [Prod.mk.injEq, true_and]; omega⟩
        · rintro ⟨hlt, rfl⟩
          refine ⟨_, ⟨by omega, rfl⟩, ?_⟩
          simp only [Option.pure_def, Option.some_inj, Prod.mk.injEq, true_and]
          omega
    · have hbit : bitAt buf n = true := by
        rw [bitAt, List.getElem?_eq_none (by rw [length_bytesBits]; omega)]
        rfl
      simp [mpGetbits_none (Nat.le_of_not_lt hn), hbit, hn]

theorem golombChunks_room {buf : List UInt8} {fuel rest n v : Nat}
    (h : n + rest ≤ 8 * buf.length) : ∃ v', golombChunks buf fuel rest n v = some v' := by
  have hlen : (((bytesBits buf).drop n).take rest).length = rest := by
    rw [List.length_take, List.length_drop, length_bytesBits]
    omega
  have hread := @golombChunks_some _ fuel _ _ v
    (show BitsAt buf n (((bytesBits buf).drop n).take rest) from List.take_prefix _ _)
  rwa [hlen] at hread

theorem le_of_golombChunks {buf : List UInt8} {fuel rest v v' : Nat}
    (h : golombChunks buf fuel rest n v = some v') (hfuel : rest ≤ fuel) (hrest : 0 < rest) :
    n + rest ≤ 8 * buf.length := by
  induction fuel generalizing rest n v with
  | zero => omega
  | succ fuel ih =>
    rw [golombChunks] at h
    simp only [show rest ≠ 0 by omega, if_false] at h
    obtain ⟨b, hb, h⟩ := Option.bind_eq_some_iff.1 h
    have hle := le_of_mpGetbits hb (by omega) (by omega)
    by_cases hmore : rest - min rest 8 = 0
    · omega
    · have := ih h (by omega) (by omega)
      omega

/-- A code is read if it ends in the buffer, and the position is then its end. -/
theorem readGolomb_iff {buf : List UInt8} {n n' : Nat} :
    (∃ g, readGolomb buf n = some (g, n')) ↔
      codeEnd buf n ≤ 8 * buf.length ∧ n' = codeEnd buf n := by
  unfold codeEnd readGolomb
  constructor
  · rintro ⟨g, h⟩
    obtain ⟨r, hr, h⟩ := Option.bind_eq_some_iff.1 h
    obtain ⟨hlt, rfl⟩ := golombZeros_iff.1 hr
    obtain ⟨v, hv, h⟩ := Option.bind_eq_some_iff.1 h
    simp only [Option.pure_def, Option.some_inj, Prod.mk.injEq] at h
    refine ⟨?_, by omega⟩
    by_cases h0 : zerosFrom buf 31 n = 0
    · omega
    · have := le_of_golombChunks hv (Nat.le_refl _) (by omega)
      omega
  · rintro ⟨hle, rfl⟩
    have hzeros := (@golombZeros_iff buf 31 n _).2 ⟨by omega, rfl⟩
    obtain ⟨v, hv⟩ := @golombChunks_room buf (zerosFrom buf 31 n) (zerosFrom buf 31 n)
      (n + zerosFrom buf 31 n + 1) 0 (by omega)
    refine ⟨2 ^ zerosFrom buf 31 n - 1 + v, ?_⟩
    rw [hzeros]
    simp only [Option.bind_eq_bind, Option.bind_some, hv, Option.pure_def, Option.some_inj,
      Prod.mk.injEq, true_and]
    omega

/-- Codes are read if they end in the buffer. -/
theorem skipGolombs_iff {buf : List UInt8} {k n n' : Nat} (hn : n ≤ 8 * buf.length) :
    skipGolombs buf k n = some n' ↔
      codesEnd buf k n ≤ 8 * buf.length ∧ n' = codesEnd buf k n := by
  induction k generalizing n with
  | zero =>
    rw [skipGolombs, codesEnd, Option.some_inj]
    exact ⟨fun h => ⟨hn, h.symm⟩, fun h => h.2.symm⟩
  | succ k ih =>
    have hlast := add_le_codesEnd buf k (codeEnd buf n)
    rw [skipGolombs, codesEnd]
    constructor
    · intro h
      obtain ⟨⟨g, m⟩, hg, h⟩ := Option.bind_eq_some_iff.1 h
      obtain ⟨hle, rfl⟩ := readGolomb_iff.1 ⟨g, hg⟩
      exact (ih hle).1 h
    · rintro ⟨hle, rfl⟩
      obtain ⟨g, hg⟩ := (@readGolomb_iff buf n _).2 ⟨by omega, rfl⟩
      rw [hg]
      exact (ih (by omega)).2 ⟨hle, rfl⟩

/-! ## Parts that read a bounded number of bits -/

/-- A part of the parser that returns, no further on than this. -/
def Within (o : Option Nat) (n k : Nat) : Prop := ∃ n', o = some n' ∧ n ≤ n' ∧ n' ≤ n + k

theorem Within.pure (n : Nat) {n' k : Nat} (h : n ≤ n') (h' : n' ≤ n + k) :
    Within (some n') n k :=
  ⟨n', rfl, h, h'⟩

theorem readGolomb_room {buf : List UInt8} {n : Nat} (h : n + 63 ≤ 8 * buf.length) :
    ∃ g n', readGolomb buf n = some (g, n') ∧ n ≤ n' ∧ n' ≤ n + 63 := by
  have h1 := codeEnd_le buf n
  have h2 := lt_codeEnd buf n
  obtain ⟨g, hg⟩ := readGolomb_iff.2 (⟨by omega, rfl⟩ : codeEnd buf n ≤ 8 * buf.length ∧ _)
  exact ⟨g, _, hg, by omega, h1⟩

/-- Codes are passed, with room for long ones. -/
theorem skipGolombs_room {buf : List UInt8} {k n : Nat} (h : n + 63 * k ≤ 8 * buf.length) :
    Within (skipGolombs buf k n) n (63 * k) := by
  have h1 := codesEnd_le buf k n
  have h2 := add_le_codesEnd buf k n
  exact ⟨_, (skipGolombs_iff (by omega)).2 ⟨by omega, rfl⟩, by omega, h1⟩

theorem scalingList_room {buf : List UInt8} {k v n : Nat} (h : n + 63 * k ≤ 8 * buf.length) :
    Within (scalingList buf k v n) n (63 * k) := by
  induction k generalizing v n with
  | zero => exact Within.pure n (Nat.le_refl n) (by omega)
  | succ k ih =>
    rw [scalingList]
    by_cases hv : v = 0
    · simp only [hv, if_true]
      exact Within.pure n (Nat.le_refl n) (by omega)
    · obtain ⟨g, m, hg, h1, h2⟩ := @readGolomb_room buf n (by omega)
      simp only [hv, if_false, hg, Option.bind_eq_bind, Option.bind_some]
      obtain ⟨n', hn', h3, h4⟩ := ih (v := ((v + golombSigned g) % 256).toNat) (n := m) (by omega)
      exact ⟨n', hn', by omega, by omega⟩

theorem scalingLists_room {buf : List UInt8} {ks : List Nat} {n : Nat}
    (h : n + 64 * (ks.sum + ks.length) ≤ 8 * buf.length) :
    Within (scalingLists buf ks n) n (64 * (ks.sum + ks.length)) := by
  induction ks generalizing n with
  | nil => exact Within.pure n (Nat.le_refl n) (by simp)
  | cons k ks ih =>
    rw [List.sum_cons, List.length_cons] at h ⊢
    obtain ⟨b, hb⟩ := @mpGetbits_room buf n 1 (by omega) (by decide) (by decide)
    rw [scalingLists, hb]
    simp only [Option.bind_eq_bind, Option.bind_some]
    split
    · obtain ⟨m, hm, h1, h2⟩ := @scalingList_room buf k 8 (n + 1) (by omega)
      rw [hm, Option.bind_some]
      obtain ⟨n', hn', h3, h4⟩ := ih (n := m) (by omega)
      exact ⟨n', hn', by omega, by omega⟩
    · obtain ⟨n', hn', h3, h4⟩ := ih (n := n + 1) (by omega)
      exact ⟨n', hn', by omega, by omega⟩

/-- The fields of the high profiles have up to 15200 bits. -/
theorem parseHigh_room {buf : List UInt8} (h : n + 15200 ≤ 8 * buf.length) :
    Within (parseHigh buf n) n 15200 := by
  obtain ⟨g, m, hg, h1, h2⟩ := @readGolomb_room buf n (by omega)
  have hplane : ∃ p, (if g = 3 then m + 1 else m) = p ∧ m ≤ p ∧ p ≤ m + 1 := by
    refine ⟨_, rfl, ?_, ?_⟩ <;> split <;> omega
  obtain ⟨p, hp, h3, h4⟩ := hplane
  obtain ⟨q, hq, h5, h6⟩ := @skipGolombs_room buf 2 p (by omega)
  obtain ⟨b, hb⟩ := @mpGetbits_room buf (q + 1) 1 (by omega) (by decide) (by decide)
  unfold parseHigh
  simp only [hg, hp, hq, hb, Option.bind_eq_bind, Option.bind_some]
  split
  · obtain ⟨n', hn', h7, h8⟩ := @scalingLists_room buf [16, 16, 16, 16, 16, 16, 64, 64] (q + 1 + 1)
      (by simp only [List.sum_cons, List.sum_nil, List.length_cons, List.length_nil]; omega)
    simp only [List.sum_cons, List.sum_nil, List.length_cons, List.length_nil] at h8
    exact ⟨n', hn', by omega, by omega⟩
  · exact Within.pure n (by omega) (by omega)

/-- The fields in front of the picture order count. -/
theorem spsHead_room {buf : List UInt8} (h : 15350 ≤ 8 * buf.length) :
    Within (spsHead buf) 0 15350 := by
  obtain ⟨g, n, hg, h1, h2⟩ := @readGolomb_room buf 24 (by omega)
  have hlt : 0 < buf.length := by omega
  have hprofile : Within (parseProfile buf n) n 15200 := by
    unfold parseProfile
    rw [List.getElem?_eq_getElem hlt, Option.bind_eq_bind, Option.bind_some]
    split
    · exact parseHigh_room (by omega)
    · exact Within.pure n (Nat.le_refl n) (by omega)
  obtain ⟨m, hm, h3, h4⟩ := hprofile
  obtain ⟨g', m', hg', h5, h6⟩ := @readGolomb_room buf m (by omega)
  unfold spsHead
  simp only [hg, hm, hg', Option.bind_eq_bind, Option.bind_some, Option.pure_def]
  exact Within.pure 0 (Nat.zero_le _) (by omega)

/-! ## Behind the picture order count -/

theorem vuiColor_room {buf : List UInt8} {n : Nat} (h : n + 30 ≤ 8 * buf.length) :
    Within (vuiColor buf n) n 30 := by
  obtain ⟨b, hb⟩ := @mpGetbits_room buf n 1 (by omega) (by decide) (by decide)
  obtain ⟨d, hd⟩ := @mpGetbits_room buf (n + 1 + 4) 1 (by omega) (by decide) (by decide)
  unfold vuiColor
  simp only [hb, hd, Option.bind_eq_bind, Option.bind_some, Option.pure_def]
  split
  · exact Within.pure n (by split <;> omega) (by split <;> omega)
  · exact Within.pure n (by omega) (by omega)

/-- The fields between the aspect ratio and the timing. -/
theorem vuiSkip_room {buf : List UInt8} {n : Nat} (h : n + 160 ≤ 8 * buf.length) :
    Within (vuiSkip buf n) n 160 := by
  obtain ⟨b, hb⟩ := @mpGetbits_room buf n 1 (by omega) (by decide) (by decide)
  have hover : ∃ p, (if b ≠ 0 then n + 1 + 1 else n + 1) = p ∧ n ≤ p ∧ p ≤ n + 2 := by
    refine ⟨_, rfl, ?_, ?_⟩ <;> split <;> omega
  obtain ⟨p, hp, h1, h2⟩ := hover
  obtain ⟨q, hq, h3, h4⟩ := @vuiColor_room buf p (by omega)
  obtain ⟨c, hc⟩ := @mpGetbits_room buf q 1 (by omega) (by decide) (by decide)
  have hcount : (if c ≠ 0 then 2 else 0) ≤ 2 := by split <;> omega
  unfold vuiSkip
  simp only [hb, hp, hq, hc, Option.bind_eq_bind, Option.bind_some]
  generalize (if c ≠ 0 then 2 else 0) = count at *
  obtain ⟨n', hn', h5, h6⟩ := @skipGolombs_room buf count (q + 1) (by omega)
  exact ⟨n', hn', by omega, by omega⟩

theorem getbits32_room {buf : List UInt8} {n : Nat} (h : n + 32 ≤ 8 * buf.length) :
    ∃ v, getbits32 buf n = some v := by
  obtain ⟨a, ha⟩ := @mpGetbits_room buf n 8 (by omega) (by decide) (by decide)
  obtain ⟨b, hb⟩ := @mpGetbits_room buf (n + 8) 8 (by omega) (by decide) (by decide)
  obtain ⟨c, hc⟩ := @mpGetbits_room buf (n + 16) 8 (by omega) (by decide) (by decide)
  obtain ⟨d, hd⟩ := @mpGetbits_room buf (n + 24) 8 (by omega) (by decide) (by decide)
  unfold getbits32
  simp only [ha, hb, hc, hd, Option.bind_eq_bind, Option.bind_some]
  exact ⟨_, rfl⟩

theorem h264ParseVui_room {picture : MpegHeader} {buf : List UInt8} (h : n + 270 ≤ 8 * buf.length) :
    ∃ r, h264ParseVui picture buf n = some r := by
  have haspect : ∃ p m, vuiAspect picture buf n = some (p, m) ∧ m ≤ n + 41 := by
    obtain ⟨b, hb⟩ := @mpGetbits_room buf n 1 (by omega) (by decide) (by decide)
    obtain ⟨idc, hidc⟩ := @mpGetbits_room buf (n + 1) 8 (by omega) (by decide) (by decide)
    unfold vuiAspect
    simp only [hb, hidc, Option.bind_eq_bind, Option.bind_some, Option.pure_def]
    split
    · exact ⟨_, _, rfl, by split <;> omega⟩
    · exact ⟨_, _, rfl, by omega⟩
  obtain ⟨p, m, hp, h1⟩ := haspect
  obtain ⟨q, hq, -, h2⟩ := @vuiSkip_room buf m (by omega)
  obtain ⟨t, ht⟩ := @mpGetbits_room buf q 1 (by omega) (by decide) (by decide)
  obtain ⟨u, hu⟩ := @getbits32_room buf (q + 1) (by omega)
  obtain ⟨r, hr⟩ := @getbits32_room buf (q + 1 + 32) (by omega)
  obtain ⟨f, hf⟩ := @mpGetbits_room buf (q + 1 + 32 + 32) 1 (by omega) (by decide) (by decide)
  unfold h264ParseVui vuiTiming
  simp only [hp, hq, ht, hu, hr, hf, Option.bind_eq_bind, Option.bind_some]
  split
  · exact ⟨_, rfl⟩
  · exact ⟨_, rfl⟩

/-- The fields behind the picture order count. -/
theorem parseSize_room {picture : MpegHeader} {buf : List UInt8} (h : n + 720 ≤ 8 * buf.length) :
    ∃ r, parseSize picture buf n = some r := by
  have bit : ∀ m, m + 1 ≤ 8 * buf.length → ∃ v, mpGetbits buf m 1 = some v :=
    fun m hm => mpGetbits_room hm (by decide) (by decide)
  obtain ⟨g1, n1, hg1, -, h1⟩ := @readGolomb_room buf n (by omega)
  obtain ⟨b1, hb1⟩ := bit n1 (by omega)
  obtain ⟨g2, n2, hg2, -, h2⟩ := @readGolomb_room buf (n1 + 1) (by omega)
  obtain ⟨g3, n3, hg3, -, h3⟩ := @readGolomb_room buf n2 (by omega)
  obtain ⟨b2, hb2⟩ := bit n3 (by omega)
  have hcrop : ∀ (p : MpegHeader) (m : Nat), m + 525 ≤ 8 * buf.length →
      ∃ r, parseCropVui p buf m = some r := by
    intro p m hm
    obtain ⟨b, hb⟩ := bit m (by omega)
    have hcount : (if b ≠ 0 then 4 else 0) ≤ 4 := by split <;> omega
    unfold parseCropVui
    rw [hb]
    simp only [Option.bind_eq_bind, Option.bind_some]
    generalize (if b ≠ 0 then 4 else 0) = count at *
    obtain ⟨q, hq, -, h4⟩ := @skipGolombs_room buf count (m + 1) (by omega)
    obtain ⟨v, hv⟩ := bit q (by omega)
    simp only [hq, hv, Option.bind_some]
    split
    · exact h264ParseVui_room (by omega)
    · exact ⟨_, rfl⟩
  obtain ⟨b3, hb3⟩ := bit (n3 + 1) (by omega)
  obtain ⟨b4, hb4⟩ := bit (n3 + 1 + 1) (by omega)
  unfold parseSize
  simp only [hg1, hb1, hg2, hg3, hb2, Option.bind_eq_bind, Option.bind_some]
  split
  · simp only [hb3, hb4, Option.pure_def, Option.bind_some]
    exact hcrop _ _ (by omega)
  · simp only [hb3, Option.pure_def, Option.bind_some]
    exact hcrop _ _ (by omega)

/-! ## Where all bits are ones -/

/-- The bits of the buffer from a position on are ones. -/
def OnesFrom (buf : List UInt8) (d : Nat) : Prop := ∀ i, d ≤ i → bitAt buf i = true

namespace OnesFrom

variable {buf : List UInt8} {d : Nat}

variable {n k n' : Nat} {picture : MpegHeader} {r : MpegHeader × Nat}

theorem bitsAt (h : OnesFrom buf d) (hn : d ≤ n) (hk : n + k ≤ 8 * buf.length) :
    BitsAt buf n (List.replicate k true) := by
  induction k generalizing n with
  | zero => exact bitsAt_nil buf n
  | succ k ih =>
    rw [List.replicate_succ]
    refine bitsAt_cons.2 ⟨?_, ih (by omega) (by omega)⟩
    have hlt : n < (bytesBits buf).length := by
      rw [length_bytesBits]
      omega
    have hone := h n hn
    rw [bitAt, List.getElem?_eq_getElem hlt, Option.getD_some] at hone
    rw [BitsAt, List.drop_eq_getElem_cons hlt, hone]
    exact ⟨_, rfl⟩

theorem bit (h : OnesFrom buf d) {v : Nat} (hn : d ≤ n) (hv : mpGetbits buf n 1 = some v) :
    v = 1 ∧ n + 1 ≤ 8 * buf.length := by
  have hle := le_of_mpGetbits hv (by decide) (by decide)
  have hread := mpGetbits_bitAt (show n < 8 * buf.length by omega)
  rw [hv, h n hn, Option.some_inj] at hread
  exact ⟨hread, hle⟩

theorem byte (h : OnesFrom buf d) {v : Nat} (hn : d ≤ n) (hv : mpGetbits buf n 8 = some v) :
    v = 255 := by
  have hle := le_of_mpGetbits hv (by decide) (by decide)
  have hread := mpGetbits_eq (h.bitsAt hn hle) (by simp) (by simp)
  rw [List.length_replicate, hv, Option.some_inj] at hread
  exact hread

/-- Among ones a code is one bit. -/
theorem codeEnd (h : OnesFrom buf d) (hn : d ≤ n) : codeEnd buf n = n + 1 := by
  simp [MpegHdr.codeEnd, zerosFrom, h n hn]

theorem codesEnd (h : OnesFrom buf d) (hn : d ≤ n) : codesEnd buf k n = n + k := by
  induction k generalizing n with
  | zero => rfl
  | succ k ih =>
    rw [MpegHdr.codesEnd, h.codeEnd hn, ih (by omega)]
    omega

theorem golomb (h : OnesFrom buf d) {g : Nat} (hn : d ≤ n) (hg : readGolomb buf n = some (g, n')) :
    n' = n + 1 ∧ n + 1 ≤ 8 * buf.length := by
  obtain ⟨hle, rfl⟩ := readGolomb_iff.1 ⟨g, hg⟩
  rw [h.codeEnd hn] at hle
  exact ⟨h.codeEnd hn, hle⟩

theorem golombs (h : OnesFrom buf d) (hn : d ≤ n) (hle : n ≤ 8 * buf.length)
    (hg : skipGolombs buf k n = some n') : n' = n + k ∧ n + k ≤ 8 * buf.length := by
  obtain ⟨hend, rfl⟩ := (skipGolombs_iff hle).1 hg
  rw [h.codesEnd hn] at hend
  exact ⟨h.codesEnd hn, hend⟩

theorem vuiAspect (h : OnesFrom buf d) {picture' : MpegHeader} (hn : d ≤ n)
    (hread : vuiAspect picture buf n = some (picture', n')) : n' = n + 41 := by
  unfold MpegHdr.vuiAspect at hread
  obtain ⟨b, hb, hread⟩ := Option.bind_eq_some_iff.1 hread
  obtain ⟨rfl, -⟩ := h.bit hn hb
  rw [if_pos (by decide)] at hread
  obtain ⟨idc, hidc, hread⟩ := Option.bind_eq_some_iff.1 hread
  have h255 := h.byte (by omega) hidc
  simp only [h255, if_true, Option.pure_def, Option.some_inj, Prod.mk.injEq] at hread
  omega

theorem vuiColor (h : OnesFrom buf d) (hn : d ≤ n) (hread : vuiColor buf n = some n') :
    n' = n + 30 := by
  unfold MpegHdr.vuiColor at hread
  obtain ⟨b, hb, hread⟩ := Option.bind_eq_some_iff.1 hread
  obtain ⟨rfl, -⟩ := h.bit hn hb
  rw [if_pos (by decide)] at hread
  obtain ⟨c, hc, hread⟩ := Option.bind_eq_some_iff.1 hread
  obtain ⟨rfl, -⟩ := h.bit (by omega) hc
  simp only [ne_eq, Nat.one_ne_zero, not_false_eq_true, if_true, Option.pure_def,
    Option.some_inj] at hread
  omega

theorem vuiSkip (h : OnesFrom buf d) (hn : d ≤ n) (hread : vuiSkip buf n = some n') :
    n' = n + 35 := by
  unfold MpegHdr.vuiSkip at hread
  obtain ⟨b, hb, hread⟩ := Option.bind_eq_some_iff.1 hread
  obtain ⟨rfl, -⟩ := h.bit hn hb
  simp only [ne_eq, Nat.one_ne_zero, not_false_eq_true, if_true] at hread
  obtain ⟨m, hm, hread⟩ := Option.bind_eq_some_iff.1 hread
  have hcolor := h.vuiColor (by omega) hm
  obtain ⟨c, hc, hread⟩ := Option.bind_eq_some_iff.1 hread
  obtain ⟨rfl, hle⟩ := h.bit (by omega) hc
  simp only [Nat.one_ne_zero, not_false_eq_true, if_true] at hread
  have := (h.golombs (by omega) hle hread).1
  omega

theorem vuiTiming (h : OnesFrom buf d) (hn : d ≤ n) (hread : vuiTiming picture buf n = some r) :
    n + 66 ≤ 8 * buf.length := by
  unfold MpegHdr.vuiTiming at hread
  obtain ⟨b, hb, hread⟩ := Option.bind_eq_some_iff.1 hread
  obtain ⟨rfl, -⟩ := h.bit hn hb
  rw [if_pos (by decide)] at hread
  obtain ⟨u, -, hread⟩ := Option.bind_eq_some_iff.1 hread
  obtain ⟨t, -, hread⟩ := Option.bind_eq_some_iff.1 hread
  obtain ⟨f, hf, -⟩ := Option.bind_eq_some_iff.1 hread
  have := (h.bit (by omega) hf).2
  omega

/-- Among ones the cropping and the VUI have 148 bits. -/
theorem parseCropVui (h : OnesFrom buf d) (hn : d ≤ n)
    (hread : parseCropVui picture buf n = some r) : n + 148 ≤ 8 * buf.length := by
  unfold MpegHdr.parseCropVui at hread
  obtain ⟨b, hb, hread⟩ := Option.bind_eq_some_iff.1 hread
  obtain ⟨rfl, hle⟩ := h.bit hn hb
  rw [if_pos (by decide)] at hread
  obtain ⟨m, hm, hread⟩ := Option.bind_eq_some_iff.1 hread
  have hcrop := (h.golombs (by omega) hle hm).1
  obtain ⟨v, hv, hread⟩ := Option.bind_eq_some_iff.1 hread
  obtain ⟨rfl, -⟩ := h.bit (by omega) hv
  simp only [ne_eq, Nat.one_ne_zero, not_false_eq_true, if_true, h264ParseVui] at hread
  obtain ⟨⟨p, m1⟩, hm1, hread⟩ := Option.bind_eq_some_iff.1 hread
  have haspect := h.vuiAspect (by omega) hm1
  obtain ⟨m2, hm2, hread⟩ := Option.bind_eq_some_iff.1 hread
  have hskip := h.vuiSkip (by omega) hm2
  have := h.vuiTiming (by omega) hread
  omega

/-- What is behind the picture order count takes 154 bits. -/
theorem parseSize (h : OnesFrom buf d) (hn : d ≤ n) (hread : parseSize picture buf n = some r) :
    n + 154 ≤ 8 * buf.length := by
  unfold MpegHdr.parseSize at hread
  obtain ⟨⟨g1, n1⟩, hg1, hread⟩ := Option.bind_eq_some_iff.1 hread
  obtain ⟨h1, -⟩ := h.golomb hn hg1
  obtain ⟨b1, hb1, hread⟩ := Option.bind_eq_some_iff.1 hread
  obtain ⟨⟨g2, n2⟩, hg2, hread⟩ := Option.bind_eq_some_iff.1 hread
  obtain ⟨h2, -⟩ := h.golomb (by omega) hg2
  obtain ⟨⟨g3, n3⟩, hg3, hread⟩ := Option.bind_eq_some_iff.1 hread
  obtain ⟨h3, -⟩ := h.golomb (by omega) hg3
  obtain ⟨b2, hb2, hread⟩ := Option.bind_eq_some_iff.1 hread
  obtain ⟨rfl, -⟩ := h.bit (by omega) hb2
  simp only [Nat.one_ne_zero, if_false, Option.pure_def, Option.bind_eq_bind,
    Option.bind_some] at hread
  obtain ⟨b3, hb3, hread⟩ := Option.bind_eq_some_iff.1 hread
  have := h.parseCropVui (by omega) hread
  omega

end OnesFrom

theorem zero_fits : 0 + 1 < 2 ^ 32 := by decide

/-- A parameter set whose last part is all ones. -/
def onesSps : Sps :=
  { plainSps 0 1 1 (by decide) (by decide) with
    refFrames := ⟨0, zero_fits⟩
    gaps := true
    crop := some (⟨0, zero_fits⟩, ⟨0, zero_fits⟩, ⟨0, zero_fits⟩, ⟨0, zero_fits⟩)
    vui := some {
      aspect := some 0xff
      sar := 0xffffffff
      overscan := some true
      videoSignal := some (0xf, some 0xffffff)
      chromaLoc := some (⟨0, zero_fits⟩, ⟨0, zero_fits⟩)
      timing := some (0xffffffff, 0xffffffff, true) } }

theorem onesSps_sizeBits : onesSps.sizeBits = List.replicate 154 true := by decide

/-- The last part of the parser stays in a buffer that ends with many ones exactly if it has 154
bits. -/
theorem parseSize_inside_iff {buf : List UInt8} {d : Nat} (picture : MpegHeader)
    (h : OnesFrom buf d) (hd : d + 720 ≤ 8 * buf.length) :
    (∃ r, parseSize picture buf n = some r) ↔ n + 154 ≤ 8 * buf.length := by
  by_cases hn : d ≤ n
  · constructor
    · rintro ⟨r, hr⟩
      exact h.parseSize hn hr
    · intro hle
      have hbits := h.bitsAt hn hle
      rw [← onesSps_sizeBits] at hbits
      obtain ⟨-, p, m, hread, -⟩ := @parseSize_eq picture _ _ _ hbits
      exact ⟨_, hread⟩
  · exact iff_of_true (parseSize_room (by omega)) (by omega)

/-! ## The whole parser -/

/-- The number of offsets that the stream gives for the picture order count cycle, and where they
begin, if the picture order count has this type. -/
def pocCycle (buf : List UInt8) : Option (Nat × Nat) := do
  let n ← spsHead buf
  let (v, n) ← readGolomb buf n
  if v = 1 then
    let n ← skipGolombs buf 2 (n + 1)
    readGolomb buf n
  else
    none

theorem length_mpUnescape03_le (bs : List UInt8) : (mpUnescape03 bs).length ≤ bs.length := by
  induction bs using mpUnescape03.induct with
  | case1 bs ih =>
    simp only [mpUnescape03, List.length_cons]
    omega
  | case2 b bs hne ih =>
    rw [mpUnescape03]
    · simpa using ih
    · exact hne
  | case3 => simp [mpUnescape03]

theorem length_spsBuffer (inbuf : List UInt8) :
    (spsBuffer inbuf).length = min (100 * 1024 * 1024) inbuf.length + 4096 := by
  have := length_mpUnescape03_le (inbuf.take (100 * 1024 * 1024))
  rw [List.length_take] at this
  simp only [spsBuffer, List.length_append, List.length_replicate, List.length_take]
  omega

/-- The buffer ends with 4096 bytes of ones at least. -/
theorem spsBuffer_ones (inbuf : List UInt8) :
    ∃ d, OnesFrom (spsBuffer inbuf) d ∧ d + 32768 ≤ 8 * (spsBuffer inbuf).length := by
  have hle := length_mpUnescape03_le (inbuf.take (100 * 1024 * 1024))
  have hlen := length_spsBuffer inbuf
  refine ⟨8 * (mpUnescape03 (inbuf.take (100 * 1024 * 1024))).length, ?_, ?_⟩
  · intro i hi
    have hones : ∀ k, bytesBits (List.replicate k 0xff) = List.replicate (8 * k) true := by
      intro k
      induction k with
      | zero => rfl
      | succ k ih =>
        rw [List.replicate_succ, bytesBits_cons, ih, Nat.mul_succ, Nat.add_comm, List.replicate_add]
        rfl
    rw [bitAt, spsBuffer]
    simp only [bytesBits_append, hones]
    rw [List.getElem?_append_right (by rw [length_bytesBits]; exact hi), List.getElem?_replicate]
    split <;> rfl
  · rw [List.length_take] at hle
    omega

/-- Every byte that the parser reads is in the buffer exactly if the offsets of a picture order
count cycle end 154 bits before the end of the buffer at least. -/
theorem parseSps_inside_iff {buf : List UInt8} {d : Nat} (picture : MpegHeader)
    (h : OnesFrom buf d) (hd : d + 32768 ≤ 8 * buf.length) :
    (∃ r, parseSps picture buf = some r) ↔
      ∀ count n, pocCycle buf = some (count, n) → codesEnd buf count n + 154 ≤ 8 * buf.length := by
  obtain ⟨n, hhead, -, hn⟩ := @spsHead_room buf (by omega)
  obtain ⟨v, m, hv, h1, h2⟩ := @readGolomb_room buf n (by omega)
  have hsize : ∀ picture k, k + 154 ≤ 8 * buf.length → ∃ r, parseSize picture buf k = some r :=
    fun picture k hk => (parseSize_inside_iff picture h (by omega)).2 hk
  unfold parseSps
  simp only [hhead, Option.bind_eq_bind, Option.bind_some, parsePoc, pocCycle, hv]
  by_cases h1v : v = 1
  · subst h1v
    obtain ⟨b, hb⟩ := @mpGetbits_room buf m 1 (by omega) (by decide) (by decide)
    obtain ⟨q, hq, h3, h4⟩ := @skipGolombs_room buf 2 (m + 1) (by omega)
    obtain ⟨count, p, hp, h5, h6⟩ := @readGolomb_room buf q (by omega)
    simp only [Nat.one_ne_zero, if_false, if_true, hb, hq, hp, Option.bind_some]
    have hskip := fun k => @skipGolombs_iff buf count p k (by omega)
    constructor
    · rintro ⟨r, hr⟩ count' n' heq
      cases heq
      obtain ⟨k, hk, hr⟩ := Option.bind_eq_some_iff.1 hr
      obtain ⟨-, rfl⟩ := (hskip k).1 hk
      exact (parseSize_inside_iff _ h (by omega)).1 ⟨r, hr⟩
    · intro hall
      have hend := hall count p rfl
      rw [(hskip _).2 ⟨by omega, rfl⟩, Option.bind_some]
      exact hsize _ _ hend
  · simp only [h1v, if_false]
    refine iff_of_true ?_ (by simp)
    by_cases h0v : v = 0
    · obtain ⟨q, hq, h3, h4⟩ := @skipGolombs_room buf 1 m (by omega)
      simp only [h0v, if_true, hq, Option.bind_some]
      exact hsize _ _ (by omega)
    · simp only [h0v, if_false, Option.pure_def, Option.bind_some]
      exact hsize _ _ (by omega)

/-- `h264_parse_sps` reads inside its buffer exactly if the offsets of a picture order count cycle,
whose number the input gives, end 154 bits before the end of the buffer at least. -/
theorem h264ParseSps_inside_iff (picture : MpegHeader) (inbuf : List UInt8) :
    (∃ r, h264ParseSps picture inbuf = some r) ↔
      ∀ count n, pocCycle (spsBuffer inbuf) = some (count, n) →
        codesEnd (spsBuffer inbuf) count n + 154 ≤ 8 * (spsBuffer inbuf).length := by
  obtain ⟨d, hones, hd⟩ := spsBuffer_ones inbuf
  exact parseSps_inside_iff picture hones hd

/-- An input of six bytes whose cycle is far longer than the buffer. -/
theorem h264ParseSps_outside :
    ¬∀ (picture : MpegHeader) (inbuf : List UInt8), ∃ r, h264ParseSps picture inbuf = some r := by
  intro hall
  obtain ⟨r, hparse⟩ := hall ⟨0, 0, 0, 0, 0, 0, 0⟩ [66, 0, 30, 0xd7, 0, 0]
  obtain ⟨d, hones, hd⟩ := spsBuffer_ones [66, 0, 30, 0xd7, 0, 0]
  have hcycle : pocCycle (spsBuffer [66, 0, 30, 0xd7, 0, 0]) = some (65790, 65) := by rfl
  have hlen := length_spsBuffer [66, 0, 30, 0xd7, 0, 0]
  have hend := add_le_codesEnd (spsBuffer [66, 0, 30, 0xd7, 0, 0]) 65790 65
  have := (parseSps_inside_iff _ hones hd).1 ⟨r, hparse⟩ 65790 65 hcycle
  simp only [List.length_cons, List.length_nil] at hlen
  omega

end MPlayer.MpegHdr
