import MPlayer.Lib.Stride
import MPlayer.Mkv.RealAudioSafety
import Mathlib.Algebra.Ring.Nat

/-!
# Descrambling of RealAudio

*Places.*  For all formats copy `x` of block `spc` fills cell `slot spc` of row `x` of the buffer,
with another permutation `slot` of the cells (`Copies.Strided`).  So each byte of the buffer is
written exactly once, by a byte of a block that goes nowhere else (`Copies.Strided.oneToOne`).

*Runs.*  After `sub_packet_h` blocks the buffer has all bytes of all blocks, up to the permutation
of the nibbles that `sipr` ends with, and the packets are the buffer cut into pieces
(`handleBlocks_assembles`).  No byte is lost exactly if the size of the buffer is an `int` and a
multiple of the size of the packets (`descrambles_iff`).
-/

namespace MPlayer

open Lib

/-! ## Places -/

/-- The copies fill the cells of a table of rows of `h` cells. -/
structure Copies.Strided (c : Copies) (h : Nat) (slot : Nat → Nat) : Prop where
  slots : Slots h slot
  dst : ∀ spc, ∀ x < c.count, c.dst spc x = c.len * (h * x + slot spc)
  src : ∀ x < c.count, c.src x = c.len * x
  ints : ∀ spc < h, ∀ x < c.count, ∀ n ∈ c.ints spc x, n ≤ c.len * (h * c.count)

/-- Each of the first `size` bytes of the buffer is written by exactly one copy of the
blocks below `h`, nothing is written behind them, and each of the first `w` bytes of a block
is read exactly once. -/
structure Copies.OneToOne (c : Copies) (h w size : Nat) : Prop where
  writes : ∀ k < size, ∃! p : Nat × Nat × Nat,
    p.1 < h ∧ p.2.1 < c.count ∧ p.2.2 < c.len ∧ c.dst p.1 p.2.1 + p.2.2 = k
  inside : ∀ spc < h, ∀ x < c.count, c.dst spc x + c.len ≤ size
  reads : ∀ j < w, ∃! p : Nat × Nat, p.1 < c.count ∧ p.2 < c.len ∧ c.src p.1 + p.2 = j

namespace Copies.Strided

variable {c : Copies} {h : Nat} {slot : Nat → Nat}

theorem room (hc : c.Strided h slot) {spc x : Nat} (hspc : spc < h) (hx : x < c.count) :
    c.dst spc x + c.len ≤ c.len * (h * c.count) := by
  rw [hc.dst spc x hx, ← Nat.mul_succ]
  exact Nat.mul_le_mul_left _ (stride_lt hx (hc.slots.lt spc hspc))

theorem oneToOne (hc : c.Strided h slot) :
    c.OneToOne h (c.len * c.count) (c.len * (h * c.count)) where
  writes := by
    intro k hk
    obtain ⟨p, ⟨hspc, hx, hd, hk⟩, huniq⟩ := hc.slots.existsUnique_place hk
    refine ⟨p, ⟨hspc, hx, hd, by rw [hc.dst _ _ hx, hk]⟩, ?_⟩
    rintro p' ⟨hspc', hx', hd', hk'⟩
    rw [hc.dst _ _ hx'] at hk'
    exact huniq p' ⟨hspc', hx', hd', hk'⟩
  inside := fun spc hspc x hx => hc.room hspc hx
  reads := by
    intro j hj
    obtain ⟨p, ⟨hx, hd, hj⟩, huniq⟩ := existsUnique_piece hj
    refine ⟨p, ⟨hx, hd, by rw [hc.src _ hx, hj]⟩, ?_⟩
    rintro p' ⟨hx', hd', hj'⟩
    rw [hc.src _ hx'] at hj'
    exact huniq p' ⟨hx', hd', hj'⟩

/-- Two different copies, of one block or of two, do not overlap in the buffer. -/
theorem apart (hc : c.Strided h slot) {i j x y d : Nat} (hi : i < h) (hj : j < h) (hx : x < c.count)
    (hy : y < c.count) (hne : i ≠ j ∨ x ≠ y) (hd : d < c.len) :
    c.dst i x + d < c.dst j y ∨ c.dst j y + c.len ≤ c.dst i x + d := by
  rw [hc.dst i x hx, hc.dst j y hy]
  refine stride_apart (fun heq => ?_) hd
  obtain ⟨hij, hxy⟩ := hc.slots.cell_inj hi hj heq
  cases hne with
  | inl hne => exact hne hij
  | inr hne => exact hne hxy

theorem fits (hc : c.Strided h slot) {spc len : Nat} (hspc : spc < h)
    (hint : IsInt (c.len * (h * c.count))) (hlen : c.len * c.count ≤ len) :
    c.Fits spc (c.len * (h * c.count)) len := by
  intro x hx
  refine ⟨fun n hn => hint.mono (hc.ints spc hspc x hx n hn), hc.room hspc hx, ?_⟩
  rw [hc.src x hx, ← Nat.mul_succ]
  exact Nat.le_trans (Nat.mul_le_mul_left _ hx) hlen

/-- The copies of one block are in different rows. -/
theorem rows_apart (hc : c.Strided h slot) {spc : Nat} (hspc : spc < h) : c.Apart spc := by
  intro x hx y hyx
  have hpos : 0 < h := Nat.lt_of_le_of_lt (Nat.zero_le _) hspc
  have hrow : h * y + slot spc + 1 ≤ h * x + slot spc :=
    Nat.add_lt_add_right (Nat.mul_lt_mul_of_pos_left hyx hpos) _
  right
  rw [hc.dst _ x hx, hc.dst _ y (Nat.lt_trans hyx hx), ← Nat.mul_succ]
  exact Nat.mul_le_mul_left _ hrow

end Copies.Strided

/-! ## The formats -/

theorem cookSlot_slots (t : RaTrack) : Slots t.sph (cookSlot t) where
  lt := fun _ hi => cookSlot_lt hi
  injective := by
    intro i hi j hj heq
    obtain hi2 | hi2 := Nat.mod_two_eq_zero_or_one i <;>
      obtain hj2 | hj2 := Nat.mod_two_eq_zero_or_one j <;>
      · simp only [cookSlot, hi2, hj2, Nat.mul_zero, Nat.mul_one] at heq
        omega
  surjective := by
    intro k hk
    by_cases heven : k < (t.sph + 1) / 2
    · refine ⟨2 * k, by omega, ?_⟩
      rw [cookSlot, Nat.mul_mod_right, Nat.mul_zero, Nat.zero_add,
        Nat.mul_div_cancel_left k Nat.two_pos]
    · refine ⟨2 * (k - (t.sph + 1) / 2) + 1, by omega, ?_⟩
      rw [cookSlot, stride_mod _ Nat.one_lt_two, stride_div _ Nat.one_lt_two, Nat.mul_one]
      omega

/-- The copies of the format. -/
def codecCopies (t : RaTrack) : Copies :=
  match t.codec with
  | .i28_8 => copies28_8 t
  | .cook | .atrc => copiesCook t
  | .sipr => copiesSipr t
  | .other => ⟨0, 0, fun _ _ => 0, fun _ => 0, fun _ _ => []⟩

/-- Where the format puts the blocks in a row. -/
def codecSlot (t : RaTrack) : Nat → Nat :=
  match t.codec with
  | .cook | .atrc => cookSlot t
  | _ => fun spc => spc

/-- The permutation of the nibbles that the format ends with. -/
def codecPerm (t : RaTrack) : Equiv.Perm Nat :=
  match t.codec with
  | .sipr => siprPerm (t.sph * t.w * 2 / 96)
  | _ => Equiv.refl Nat

/-- The numbers in the header belong together. -/
def Dimensions (t : RaTrack) : Prop :=
  1 ≤ t.sph ∧
    match t.codec with
    | .i28_8 => t.sph % 2 = 0 ∧ t.sph * t.codedFramesize.toNat = 2 * t.w
    | .cook | .atrc => t.sps ∣ t.w
    | .sipr => 48 ∣ t.w * t.sph
    | .other => False

theorem w_lt (t : RaTrack) : t.w < 2 ^ 16 := t.audiopkSize.toNat_lt

/-- A coded frame of the right size is an `int`. -/
theorem cfs_eq {t : RaTrack} (hle : t.codedFramesize.toNat ≤ t.w) :
    t.cfs = t.codedFramesize.toNat := by
  have hw := w_lt t
  exact Int.bmod_eq_of_le (by omega) (by omega)

theorem copies28_8_strided {t : RaTrack} (hw : t.sph * t.cfs.toNat = 2 * t.w) :
    (copies28_8 t).Strided t.sph fun spc => spc := by
  have hrow : ∀ spc x, x * 2 * t.w + spc * t.cfs.toNat = t.cfs.toNat * (t.sph * x + spc) := by
    intro spc x
    rw [Nat.mul_assoc x, ← hw, Nat.mul_add, Nat.mul_comm spc, Nat.mul_left_comm, ← Nat.mul_assoc,
      Nat.mul_comm]
  refine ⟨slots_id t.sph, ?_, ?_, ?_⟩
  · intro spc x _
    simp only [copies28_8, hrow]
  · intro x _
    simp only [copies28_8]
  · intro spc hspc x hx
    simp only [copies28_8] at hx
    have hend : t.cfs.toNat * (t.sph * x + spc) ≤ t.cfs.toNat * (t.sph * (t.sph / 2)) :=
      Nat.mul_le_mul_left _ (Nat.le_of_lt (stride_lt hx hspc))
    have hsrc : t.cfs.toNat * x ≤ t.cfs.toNat * (t.sph * (t.sph / 2)) := by
      refine Nat.mul_le_mul_left _ (Nat.le_trans (Nat.le_of_lt hx) ?_)
      exact Nat.le_mul_of_pos_left _ (Nat.lt_of_le_of_lt (Nat.zero_le _) hspc)
    have hdst := hrow spc x
    simp only [copies28_8, List.forall_mem_cons, List.not_mem_nil, false_implies, implies_true,
      and_true]
    exact ⟨by omega, by omega, hsrc⟩

theorem copiesCook_strided (t : RaTrack) : (copiesCook t).Strided t.sph (cookSlot t) where
  slots := cookSlot_slots t
  dst := fun spc x _ => copiesCook_dst t spc x
  src := fun _ _ => rfl
  ints := by
    intro spc hspc x hx
    have hend : t.sps * (t.sph * x + cookSlot t spc) ≤ t.sps * (t.sph * (t.w / t.sps)) :=
      Nat.mul_le_mul_left _ (Nat.le_of_lt (stride_lt hx (cookSlot_lt hspc)))
    have hsrc : t.sps * x ≤ t.sps * (t.sph * (t.w / t.sps)) := by
      refine Nat.mul_le_mul_left _ (Nat.le_trans (Nat.le_of_lt hx) ?_)
      exact Nat.le_mul_of_pos_left _ (Nat.lt_of_le_of_lt (Nat.zero_le _) hspc)
    intro n hn
    simp only [copiesCook, Nat.add_assoc, List.mem_cons, List.not_mem_nil, or_false] at hn
    cases hn with
    | inl hn => exact hn ▸ hend
    | inr hn => exact hn ▸ hsrc

theorem copiesSipr_strided (t : RaTrack) : (copiesSipr t).Strided t.sph fun spc => spc where
  slots := slots_id t.sph
  dst := by
    intro spc x hx
    have hx : x = 0 := Nat.lt_one_iff.mp hx
    rw [hx, Nat.mul_zero, Nat.zero_add]
    exact Nat.mul_comm spc t.w
  src := by
    intro x hx
    have hx : x = 0 := Nat.lt_one_iff.mp hx
    rw [hx, Nat.mul_zero]
    rfl
  ints := by
    intro spc hspc x _ n hn
    rw [List.mem_singleton.mp hn, Nat.mul_comm spc]
    exact Nat.mul_le_mul_left t.w (Nat.le_of_lt (Nat.lt_of_lt_of_eq hspc (Nat.mul_one t.sph).symm))

theorem Dimensions.ne_other {t : RaTrack} (h : Dimensions t) : t.codec ≠ .other := by
  intro hother
  have hdims := h.2
  simp only [hother] at hdims

theorem Dimensions.cfs {t : RaTrack} (h : Dimensions t) (hcodec : t.codec = .i28_8) :
    t.sph % 2 = 0 ∧ t.sph * t.cfs.toNat = 2 * t.w ∧ 0 ≤ t.cfs := by
  obtain ⟨hsph, h⟩ := h
  simp only [hcodec] at h
  obtain ⟨heven, hw⟩ := h
  have hcfs : t.cfs = t.codedFramesize.toNat := by
    refine cfs_eq (Nat.le_of_mul_le_mul_left ?_ Nat.two_pos)
    rw [← hw]
    exact Nat.mul_le_mul_right _ (by omega)
  rw [hcfs, Int.toNat_natCast]
  exact ⟨heven, hw, Int.natCast_nonneg _⟩

/-- With numbers that belong together the copies of every format fill the buffer row by row, with
the bytes of one block in a column. -/
theorem Dimensions.strided {t : RaTrack} (h : Dimensions t) :
    (codecCopies t).Strided t.sph (codecSlot t) ∧
      (codecCopies t).len * (codecCopies t).count = t.w := by
  have hdims := h.2
  cases hcodec : t.codec with
  | i28_8 =>
    obtain ⟨heven, hw, -⟩ := h.cfs hcodec
    simp only [codecCopies, codecSlot, hcodec]
    refine ⟨copies28_8_strided hw, ?_⟩
    simp only [copies28_8]
    refine Nat.eq_of_mul_eq_mul_left Nat.two_pos ?_
    rw [← hw, Nat.mul_left_comm, Nat.mul_div_cancel' (Nat.dvd_of_mod_eq_zero heven), Nat.mul_comm]
  | cook | atrc =>
    simp only [hcodec] at hdims
    simp only [codecCopies, codecSlot, hcodec]
    exact ⟨copiesCook_strided t, Nat.mul_div_cancel' hdims⟩
  | sipr =>
    simp only [codecCopies, codecSlot, hcodec]
    exact ⟨copiesSipr_strided t, Nat.mul_one t.w⟩
  | other => exact absurd hcodec h.ne_other

/-- The copies fill the whole buffer. -/
theorem Dimensions.size {t : RaTrack} (h : Dimensions t) :
    (codecCopies t).len * (t.sph * (codecCopies t).count) = t.sph * t.w := by
  rw [Nat.mul_left_comm, h.strided.2]

/-- Every byte of the buffer is written once, and every byte of a block is read once. -/
theorem Dimensions.oneToOne {t : RaTrack} (h : Dimensions t) :
    (codecCopies t).OneToOne t.sph t.w (t.sph * t.w) := by
  have hone := h.strided.1.oneToOne
  rwa [h.strided.2, h.size] at hone

/-! ## Runs -/

/-- The bytes of the blocks are in the buffer where the copies put them. -/
def Assembled (c : Copies) (blocks : List (List UInt8)) (buf : List UInt8) : Prop :=
  ∀ spc b, blocks[spc]? = some b → ∀ x < c.count, ∀ d < c.len,
    buf[c.dst spc x + d]? = b[c.src x + d]?

/-- A block that is stored leaves the blocks before it as they are. -/
theorem Assembled.step {c : Copies} {h : Nat} {slot : Nat → Nat} (hc : c.Strided h slot)
    {blocks : List (List UInt8)} {buf buffer res : List UInt8} (hlt : blocks.length < h)
    (hbuf : Assembled c blocks buf) (hres : c.Stored blocks.length buf buffer c.count res) :
    Assembled c (blocks ++ [buffer]) res := by
  intro spc b hb x hx d hd
  by_cases hold : spc < blocks.length
  · rw [List.getElem?_append_left hold] at hb
    rw [hres.outside _ fun y hy => ?_]
    · exact hbuf spc b hb x hx d hd
    · exact hc.apart (Nat.lt_trans hold hlt) hlt hx hy (.inl (Nat.ne_of_lt hold)) hd
  · have hlen := (List.getElem?_eq_some_iff.mp hb).1
    have hspc : spc = blocks.length := by
      simp only [List.length_append, List.length_singleton] at hlen
      omega
    rw [hspc, List.getElem?_concat_length] at hb
    cases hb
    rw [hspc]
    exact hres.inside (hc.rows_apart hlt) x hx d hd

/-- Nothing undefined happens to a track, and its packets have all bytes. -/
structure Lossless (t : RaTrack) : Prop where
  align : t.nBlockAlign ≠ 0
  dvd : t.nBlockAlign ∣ t.sph * t.w
  int : IsInt (if t.codec = .sipr then t.sph * t.w * 2 else t.sph * t.w)

namespace Lossless

variable {t : RaTrack}

theorem int_size (h : Lossless t) : IsInt (t.sph * t.w) := by
  have hint := h.int
  split at hint
  · exact hint.mono (Nat.le_mul_of_pos_right _ Nat.two_pos)
  · exact hint

/-- Every block is stored by the copies of the format, and the last one is followed by the
permutation of the nibbles. -/
theorem storeBlock_places (h : Lossless t) (hd : Dimensions t) {spc : Nat}
    {audioBuf buffer : List UInt8} (hspc : spc < t.sph) (hlen : audioBuf.length = t.sph * t.w)
    (hblock : buffer.length = t.w) :
    ∃ mid res, storeBlock t spc audioBuf buffer = .ok res ∧
      (codecCopies t).Stored spc audioBuf buffer (codecCopies t).count mid ∧
      (t.codec ≠ .sipr ∨ spc + 1 ≠ t.sph → res = mid) ∧
      (spc + 1 = t.sph → Reordered mid (codecPerm t) res) := by
  have hfits : (codecCopies t).Fits spc audioBuf.length buffer.length := by
    rw [hlen, ← hd.size]
    refine hd.strided.1.fits hspc ?_ ?_
    · rw [hd.size]
      exact h.int_size
    · exact Nat.le_of_eq (hd.strided.2.trans hblock.symm)
  obtain ⟨mid, hmid, hstored⟩ := ((codecCopies t).store_spec spc audioBuf buffer).1 hfits
  have halign := h.align
  have hint := h.int
  cases hcodec : t.codec with
  | i28_8 =>
    have hcfs : ¬(0 < t.sph / 2 ∧ t.cfs < 0) := fun hneg =>
      Int.not_lt.mpr (hd.cfs hcodec).2.2 hneg.2
    simp only [codecCopies, hcodec] at hmid hstored
    simp only [storeBlock, codecCopies, codecPerm, hcodec, if_neg hcfs]
    exact ⟨mid, mid, hmid, hstored, fun _ => rfl, fun _ => .refl mid⟩
  | cook | atrc =>
    simp only [RaTrack.nBlockAlign, hcodec] at halign
    simp only [codecCopies, hcodec] at hmid hstored
    simp only [storeBlock, codecCopies, codecPerm, hcodec, if_neg halign]
    exact ⟨mid, mid, hmid, hstored, fun _ => rfl, fun _ => .refl mid⟩
  | sipr =>
    rw [if_pos hcodec] at hint
    simp only [codecCopies, hcodec] at hmid hstored
    simp only [storeBlock, codecCopies, codecPerm, hcodec, hmid, ok_bind]
    by_cases hlast : spc + 1 = t.sph
    · have hbs : t.sph * t.w * 2 / 96 * 96 ≤ 2 * mid.length := by
        rw [hstored.length, hlen]
        omega
      obtain ⟨res, hres, hreordered⟩ := siprReorder_follows hbs
      rw [if_pos hlast, toInt_ok hint, ok_bind]
      exact ⟨mid, res, hres, hstored, fun h => absurd hlast (h.resolve_left fun h => h rfl),
        fun _ => hreordered⟩
    · rw [if_neg hlast]
      exact ⟨mid, mid, rfl, hstored, fun _ => rfl, fun h => absurd h hlast⟩
  | other => exact absurd hcodec hd.ne_other

end Lossless

section Runs

variable {T : Type} {t : RaTrack}

/-- What `sub_packet_h` blocks end with. -/
structure Descrambled (t : RaTrack) (blocks : List (List UInt8))
    (r : RaState T × List (RaPacket T)) : Prop where
  good : r.1.Good t
  again : r.1.subPacketCnt = 0
  places : ∃ buf, Assembled (codecCopies t) blocks buf ∧
    Reordered buf (codecPerm t) r.1.audioBuf ∧ (t.codec ≠ .sipr → r.1.audioBuf = buf)
  whole : (r.2.map RaPacket.buffer).flatten = r.1.audioBuf
  sizes : ∀ p ∈ r.2, p.buffer.length = t.nBlockAlign

variable [Zero T] {s : RaState T}

/-- The packets of the buffer are the whole buffer. -/
theorem releasePackets_whole (h : Lossless t) (hbuf : s.audioBuf.length = t.sph * t.w)
    (hstamps : s.audioTimestamp.length = t.sph) :
    ∃ packets, releasePackets t s = .ok packets ∧
      (packets.map RaPacket.buffer).flatten = s.audioBuf ∧
      ∀ p ∈ packets, p.buffer.length = t.nBlockAlign := by
  obtain ⟨packets, hpackets, hpieces⟩ := releasePackets_ok hbuf hstamps h.align h.int_size
  refine ⟨packets, hpackets, ?_, ?_⟩
  · rw [hpieces, flatten_pieces, Nat.div_mul_cancel h.dvd, ← hbuf, List.take_length]
  · intro p hp
    have hmem := List.mem_map_of_mem (f := RaPacket.buffer) hp
    rw [hpieces] at hmem
    obtain ⟨x, hx, hpx⟩ := List.mem_map.mp hmem
    have hx := List.mem_range.mp hx
    have hend : x * t.nBlockAlign + t.nBlockAlign ≤ t.sph * t.w := by
      rw [← Nat.succ_mul]
      exact Nat.le_trans (Nat.mul_le_mul_right _ hx) (Nat.div_mul_le_self _ _)
    rw [← hpx, List.length_take, List.length_drop, hbuf]
    omega

variable [DecidableEq T]

/-- A block goes on, and the last one ends with the packets. -/
theorem handleRealaudio_places (h : Lossless t) (hd : Dimensions t) (e : RaEnv T) (hs : s.Good t)
    {blocks : List (List UInt8)} (hcnt : s.subPacketCnt = blocks.length)
    (hbuf : Assembled (codecCopies t) blocks s.audioBuf) {buffer : List UInt8}
    (hblock : buffer.length = t.w) :
    ∃ r, handleRealaudio t e s buffer = .ok r ∧
      (s.subPacketCnt + 1 ≠ t.sph → r.1.Good t ∧ r.1.subPacketCnt = (blocks ++ [buffer]).length ∧
        Assembled (codecCopies t) (blocks ++ [buffer]) r.1.audioBuf ∧ r.2 = []) ∧
      (s.subPacketCnt + 1 = t.sph → Descrambled t (blocks ++ [buffer]) r) := by
  obtain ⟨mid, res, hres, hstored, hsame, hlast⟩ :=
    h.storeBlock_places hd hs.cnt hs.audioBuf hblock
  rw [hcnt] at hstored
  have hassembled := hbuf.step hd.strided.1 (hcnt ▸ hs.cnt) hstored
  have hroom : ¬s.audioTimestamp.length ≤ s.subPacketCnt :=
    Nat.not_le.mpr (hs.audioTimestamp ▸ hs.cnt)
  have hmidlen : mid.length = t.sph * t.w := hstored.length.trans hs.audioBuf
  have hstamps : (s.stored e res).audioTimestamp.length = t.sph :=
    List.length_set.trans hs.audioTimestamp
  have hcnt' : (s.stored e res).subPacketCnt = s.subPacketCnt + 1 := rfl
  rw [handleRealaudio, if_neg hd.ne_other, hres, ok_bind, if_neg hroom, releaseFull, hcnt']
  by_cases hend : s.subPacketCnt + 1 = t.sph
  · have hreordered := hlast hend
    have hbuflen : (s.stored e res).audioBuf.length = t.sph * t.w :=
      hreordered.length.trans hmidlen
    obtain ⟨packets, hpackets, hwhole, hsizes⟩ := releasePackets_whole h hbuflen hstamps
    rw [if_pos hend, hpackets, ok_bind]
    refine ⟨_, rfl, fun h => absurd hend h, fun _ => ?_⟩
    exact {
      good := ⟨hd.1, hbuflen, hstamps⟩
      again := rfl
      places := ⟨mid, hassembled, hreordered, fun hsipr => hsame (.inl hsipr)⟩
      whole := hwhole
      sizes := hsizes }
  · rw [if_neg hend]
    have hmid : res = mid := hsame (.inr hend)
    subst hmid
    refine ⟨_, rfl, fun _ => ⟨⟨?_, hmidlen, hstamps⟩, ?_, hassembled, rfl⟩, fun h => absurd h hend⟩
    · exact Nat.lt_of_le_of_ne hs.cnt hend
    · rw [hcnt', hcnt, List.length_append, List.length_singleton]

/-- The blocks that are left fill the rest of the buffer. -/
theorem handleBlocks_assembles (h : Lossless t) (hd : Dimensions t)
    {calls : List (RaEnv T × List UInt8)} (hcalls : ∀ b ∈ calls, b.2.length = t.w)
    (hs : s.Good t) (blocks : List (List UInt8)) (hcnt : s.subPacketCnt = blocks.length)
    (hbuf : Assembled (codecCopies t) blocks s.audioBuf)
    (hlen : blocks.length + calls.length = t.sph) :
    ∃ r, handleBlocks t calls s = .ok r ∧ Descrambled t (blocks ++ calls.map Prod.snd) r := by
  induction calls generalizing s blocks with
  | nil => exact absurd hs.cnt (by rw [hcnt, ← hlen]; exact Nat.lt_irrefl _)
  | cons b calls ih =>
    obtain ⟨e, buffer⟩ := b
    have hblock : buffer.length = t.w := hcalls _ List.mem_cons_self
    obtain ⟨r, hr, hmiddle, hlast⟩ := handleRealaudio_places h hd e hs hcnt hbuf hblock
    rw [handleBlocks, hr, ok_bind]
    rw [List.length_cons] at hlen
    by_cases hend : s.subPacketCnt + 1 = t.sph
    · have hnil : calls = [] := List.eq_nil_of_length_eq_zero (by omega)
      subst hnil
      refine ⟨_, rfl, ?_⟩
      simpa using hlast hend
    · obtain ⟨hgood, hcnt', hbuf', hnone⟩ := hmiddle hend
      obtain ⟨r', hr', hdone⟩ := ih (fun b' hb' => hcalls b' (List.mem_cons_of_mem _ hb')) hgood
        _ hcnt' hbuf' (by rw [List.length_append, List.length_singleton]; omega)
      rw [hr', ok_bind, hnone, List.nil_append]
      refine ⟨_, rfl, ?_⟩
      rwa [List.map_cons, List.append_cons]

variable (T) in
/-- Descrambling is a permutation: the copies write each byte of the buffer once and read each byte
of a block once, and `sub_packet_h` blocks of `audiopk_size` bytes come out as the whole buffer. -/
def Descrambles (t : RaTrack) : Prop :=
  (codecCopies t).OneToOne t.sph t.w (t.sph * t.w) ∧
    ∀ (s : RaState T) (calls : List (RaEnv T × List UInt8)), s.Good t → s.subPacketCnt = 0 →
      calls.length = t.sph → (∀ b ∈ calls, b.2.length = t.w) →
      ∃ r, handleBlocks t calls s = .ok r ∧ Descrambled t (calls.map Prod.snd) r

/-- Without a fault no byte is lost. -/
theorem Descrambles.lossless {t : RaTrack} (h : Descrambles T t) (hd : Dimensions t) :
    Lossless t := by
  obtain ⟨-, hruns⟩ := h
  let calls : List (RaEnv T × List UInt8) :=
    List.replicate t.sph (⟨0, 0, false, false⟩, List.replicate t.w 0)
  have hstart : (RaState.start t : RaState T).Good t := RaState.start_good hd.1
  obtain ⟨r, hr, hdone⟩ := hruns (.start t) calls hstart rfl List.length_replicate fun b hb => by
    rw [List.eq_of_mem_replicate hb, List.length_replicate]
  have hfits : BlocksFit t 0 calls := by
    refine Classical.byContradiction fun hnot => ?_
    rw [(handleBlocks_spec hstart).2 hnot] at hr
    cases hr
  have hlt : t.sph - 1 < t.sph := Nat.sub_lt hd.1 Nat.one_pos
  have hlast := hfits (t.sph - 1) _ (List.getElem?_replicate_of_lt hlt)
  rw [Nat.zero_add, Nat.mod_eq_of_lt hlt] at hlast
  obtain ⟨hstore, hrelease⟩ := hlast.resolve_left hd.ne_other
  obtain ⟨halign, hint⟩ := hrelease (Nat.sub_add_cancel hd.1)
  refine ⟨halign, ?_, ?_⟩
  · have hlen : (r.2.map RaPacket.buffer).flatten.length = t.sph * t.w := by
      rw [hdone.whole, hdone.good.audioBuf]
    rw [← hlen]
    refine dvd_length_flatten fun l hl => ?_
    obtain ⟨p, hp, hpl⟩ := List.mem_map.mp hl
    rw [← hpl, hdone.sizes p hp]
  · split
    · next hsipr =>
      simp only [StoreFits, hsipr] at hstore
      exact hstore.2.2 (Nat.sub_add_cancel hd.1)
    · exact hint

/-- With numbers that belong together descrambling is a permutation exactly if the size of the
buffer is an `int` and a multiple of the size of the packets, which is not 0. -/
theorem descrambles_iff {t : RaTrack} (hd : Dimensions t) : Descrambles T t ↔ Lossless t := by
  constructor
  · intro h
    exact h.lossless hd
  · intro h
    refine ⟨hd.oneToOne, fun s calls hs hcnt hlen hcalls => ?_⟩
    exact handleBlocks_assembles h hd hcalls hs [] hcnt
      (fun spc b hb => by cases hb) (by rw [List.length_nil, Nat.zero_add, hlen])

end Runs

/-- `cook` with an odd height. -/
theorem descrambles_cook : Descrambles Nat ⟨.cook, 0, 3, 4, 2⟩ :=
  (descrambles_iff ⟨by decide, by decide⟩).mpr ⟨by decide, by decide, by decide⟩

/-- The last 3 of 48 bytes of `sipr` are lost in packets of 5 bytes. -/
theorem sipr_loses_bytes : ¬∀ t : RaTrack, Dimensions t → Descrambles Nat t := by
  intro h
  have hd : Dimensions ⟨.sipr, 5, 1, 48, 0⟩ := ⟨by decide, by decide⟩
  have hdvd := ((h _ hd).lossless hd).dvd
  revert hdvd
  decide

end MPlayer
