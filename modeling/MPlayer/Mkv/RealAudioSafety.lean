import MPlayer.Mkv.Nibbles
import Mathlib.Algebra.Ring.Nat

/-!
# Safety of RealAudio

*A block.*  A block is put into the buffer if each of its copies begins at an `int`, and stays
inside the buffer and the block (`Copies.store_spec`).  `BlockFits` says what that means for the
numbers in the header of the track and the length of the block.

*A run.*  The blocks are counted modulo `sub_packet_h`, so a run is safe exactly if each block fits
at its place (`realaudio_safe_iff`).
-/

namespace MPlayer

open Lib

/-! ## The header -/

theorem avRb16_eq {src : List UInt8} {i : Nat} {n : UInt16}
    (h : (src.drop i).take 2 = beBytes 2 n.toNat) : avRb16 src i = n := by
  have hmod : n.toNat % 256 ^ 2 = n.toNat := Nat.mod_eq_of_lt n.toNat_lt
  rw [avRb16, h, beValue_beBytes, Nat.zero_mul, Nat.zero_add, hmod, UInt16.ofNat_toNat]

theorem avRb32_eq {src : List UInt8} {i : Nat} {n : UInt32}
    (h : (src.drop i).take 4 = beBytes 4 n.toNat) : avRb32 src i = n := by
  have hmod : n.toNat % 256 ^ 4 = n.toNat := Nat.mod_eq_of_lt n.toNat_lt
  rw [avRb32, h, beValue_beBytes, Nat.zero_mul, Nat.zero_add, hmod, UInt32.ofNat_toNat]

/-- A header of version 5 with the fields of a track. -/
def raHeader (t : RaTrack) : List UInt8 :=
  [0, 0, 0, 0, 0, 5] ++ List.replicate 18 0 ++ beBytes 4 t.codedFramesize.toNat ++
    List.replicate 12 0 ++ beBytes 2 t.subPacketH.toNat ++ beBytes 2 t.audiopkSize.toNat ++
    beBytes 2 t.subPacketSize.toNat ++ List.replicate 32 0

/-- All fields of a track are arbitrary. -/
theorem demuxMkvOpenAudio_raHeader (t : RaTrack) :
    demuxMkvOpenAudio t.codec (raHeader t) = some t := by
  have hversion : avRb16 (raHeader t) 4 = 5 := rfl
  have hcfs : avRb32 (raHeader t) 24 = t.codedFramesize := avRb32_eq rfl
  have hsph : avRb16 (raHeader t) 40 = t.subPacketH := avRb16_eq rfl
  have hw : avRb16 (raHeader t) 42 = t.audiopkSize := avRb16_eq rfl
  have hsps : avRb16 (raHeader t) 44 = t.subPacketSize := avRb16_eq rfl
  rw [demuxMkvOpenAudio, hversion, hcfs, hsph, hw, hsps]
  rfl

/-! ## Copies -/

variable {n spc len : Nat}

theorem IsInt.mono {m : Nat} (h : IsInt n) (hle : m ≤ n) : IsInt m := Nat.lt_of_le_of_lt hle h

theorem toInt_ok (h : IsInt n) : toInt n = .ok n := if_pos h

theorem toInt_error (h : ¬IsInt n) : toInt n = .error .undefined := if_neg h

/-- Copy `x` of block `spc` is inside of a buffer and a block of given sizes. -/
structure Copies.FitsAt (c : Copies) (spc x size len : Nat) : Prop where
  ints : ∀ n ∈ c.ints spc x, IsInt n
  room : c.dst spc x + c.len ≤ size
  enough : c.src x + c.len ≤ len

/-- All copies of block `spc` are. -/
def Copies.Fits (c : Copies) (spc size len : Nat) : Prop :=
  ∀ x < c.count, c.FitsAt spc x size len

/-- No two copies of a block overlap in the buffer. -/
def Copies.Apart (c : Copies) (spc : Nat) : Prop :=
  ∀ x < c.count, ∀ y < x, c.dst spc x + c.len ≤ c.dst spc y ∨ c.dst spc y + c.len ≤ c.dst spc x

/-- The buffer behind the first `n` copies of a block. -/
structure Copies.Stored (c : Copies) (spc : Nat) (audioBuf buffer : List UInt8) (n : Nat)
    (res : List UInt8) : Prop where
  length : res.length = audioBuf.length
  inside : c.Apart spc → ∀ x < n, ∀ k < c.len, res[c.dst spc x + k]? = buffer[c.src x + k]?
  outside : ∀ k, (∀ x < n, k < c.dst spc x ∨ c.dst spc x + c.len ≤ k) → res[k]? = audioBuf[k]?

theorem Copies.Stored.step {c : Copies} {spc n : Nat} {audioBuf buffer buf res : List UInt8}
    (h : c.Stored spc audioBuf buffer n buf) (hn : n < c.count)
    (hcopy : Copied buf (c.dst spc n) buffer (c.src n) c.len res) :
    c.Stored spc audioBuf buffer (n + 1) res where
  length := hcopy.length.trans h.length
  inside := by
    intro hapart x hx k hk
    cases Nat.lt_succ_iff_lt_or_eq.mp hx with
    | inr hx =>
      subst hx
      exact hcopy.inside k hk
    | inl hx =>
      have hor := hapart n hn x hx
      rw [hcopy.outside _ (by omega)]
      exact h.inside hapart x hx k hk
  outside := by
    intro k hk
    rw [hcopy.outside k (hk n (Nat.lt_succ_self n))]
    exact h.outside k fun x hx => hk x (Nat.lt_succ_of_lt hx)

/-- A block is stored if its copies fit, and else that is undefined. -/
theorem Copies.store_spec (c : Copies) (spc : Nat) (audioBuf buffer : List UInt8) :
    (c.Fits spc audioBuf.length buffer.length →
      ∃ res, c.store spc audioBuf buffer = .ok res ∧ c.Stored spc audioBuf buffer c.count res) ∧
    (¬c.Fits spc audioBuf.length buffer.length →
      c.store spc audioBuf buffer = .error .undefined) := by
  refine foldlM_range_spec (I := c.Stored spc audioBuf buffer) c.count ?_
    ⟨rfl, fun _ x hx => absurd hx (Nat.not_lt_zero x), fun k _ => rfl⟩
  intro x hx buf hbuf
  constructor
  · intro h
    obtain ⟨res, hres, hcopy⟩ := copyInto_ok (hbuf.length.symm ▸ h.room) h.enough
    exact ⟨res, by rw [if_pos h.ints, hres], hbuf.step hx hcopy⟩
  · intro hnot
    by_cases hints : ∀ n ∈ c.ints spc x, IsInt n
    · rw [if_pos hints]
      refine copyInto_error fun h => hnot ⟨hints, ?_, h.2⟩
      rw [← hbuf.length]
      exact h.1
    · rw [if_neg hints]

/-! ## The formats -/

/-- Where block `spc` begins in a row of the buffer. -/
def cookSlot (t : RaTrack) (spc : Nat) : Nat := ((t.sph + 1) / 2) * (spc % 2) + spc / 2

theorem cookSlot_lt {t : RaTrack} (h : spc < t.sph) : cookSlot t spc < t.sph := by
  rw [cookSlot]
  obtain h0 | h1 : spc % 2 = 0 ∨ spc % 2 = 1 := by omega
  · rw [h0]
    omega
  · rw [h1]
    omega

/-- When a block of `len` bytes can be stored as block `spc`. -/
def StoreFits (t : RaTrack) (spc len : Nat) : Prop :=
  match t.codec with
  | .i28_8 => 1 < t.sph → 0 ≤ t.cfs ∧
      (t.sph / 2 - 1) * 2 * t.w + (spc + 1) * t.cfs.toNat ≤ t.sph * t.w ∧
      t.sph / 2 * t.cfs.toNat ≤ len ∧
      IsInt ((t.sph / 2 - 1) * 2 * t.w) ∧ IsInt (spc * t.cfs.toNat) ∧
      IsInt ((t.sph / 2 - 1) * t.cfs.toNat)
  | .cook | .atrc => t.sps ≠ 0 ∧ t.sps * (t.w / t.sps) ≤ len ∧
      (t.sps ≤ t.w → IsInt (t.sps * (t.sph * (t.w / t.sps - 1) + cookSlot t spc)))
  | .sipr => t.w ≤ len ∧ IsInt (spc * t.w) ∧ (spc + 1 = t.sph → IsInt (t.sph * t.w * 2))
  | .other => True

/-- When `handle_realaudio` may be called with a block of `len` bytes as block `spc`: it can be
stored, and behind the last one the packets can be released. -/
def BlockFits (t : RaTrack) (spc len : Nat) : Prop :=
  t.codec = .other ∨
    (StoreFits t spc len ∧ (spc + 1 = t.sph → t.nBlockAlign ≠ 0 ∧ IsInt (t.sph * t.w)))

theorem copies28_8_fits {t : RaTrack} :
    (copies28_8 t).Fits spc (t.sph * t.w) len ↔ (1 < t.sph →
      (t.sph / 2 - 1) * 2 * t.w + (spc + 1) * t.cfs.toNat ≤ t.sph * t.w ∧
      t.sph / 2 * t.cfs.toNat ≤ len ∧
      IsInt ((t.sph / 2 - 1) * 2 * t.w) ∧ IsInt (spc * t.cfs.toNat) ∧
      IsInt ((t.sph / 2 - 1) * t.cfs.toNat)) := by
  have hnext : (spc + 1) * t.cfs.toNat = spc * t.cfs.toNat + t.cfs.toNat := Nat.succ_mul _ _
  constructor
  · intro h hsph
    have hhalf : t.sph / 2 - 1 + 1 = t.sph / 2 := by omega
    have hlt : t.sph / 2 - 1 < (copies28_8 t).count := Nat.lt_of_lt_of_eq (Nat.lt_succ_self _) hhalf
    obtain ⟨hints, hroom, hlen⟩ := h (t.sph / 2 - 1) hlt
    simp only [copies28_8, List.forall_mem_cons] at hints hroom hlen
    have hlast : t.cfs.toNat * (t.sph / 2 - 1) + t.cfs.toNat = t.sph / 2 * t.cfs.toNat := by
      rw [← Nat.mul_succ, Nat.succ_eq_add_one, hhalf, Nat.mul_comm]
    refine ⟨?_, hlast ▸ hlen, hints.1, hints.2.1, Nat.mul_comm _ _ ▸ hints.2.2.1⟩
    rw [hnext]
    omega
  · intro h x hx
    have hx : x < t.sph / 2 := hx
    obtain ⟨hroom, hlen, hrows, hblock, hsrc⟩ := h (by omega)
    have hrow : x * 2 * t.w ≤ (t.sph / 2 - 1) * 2 * t.w :=
      Nat.mul_le_mul_right _ (Nat.mul_le_mul_right 2 (Nat.le_sub_one_of_lt hx))
    have hpiece : t.cfs.toNat * x ≤ (t.sph / 2 - 1) * t.cfs.toNat := by
      rw [Nat.mul_comm]
      exact Nat.mul_le_mul_right _ (Nat.le_sub_one_of_lt hx)
    have hend : t.cfs.toNat * x + t.cfs.toNat ≤ t.sph / 2 * t.cfs.toNat := by
      rw [← Nat.mul_succ, Nat.mul_comm]
      exact Nat.mul_le_mul_right _ hx
    constructor
    · simp only [copies28_8, List.forall_mem_cons, List.not_mem_nil, false_implies, implies_true,
        and_true]
      exact ⟨hrows.mono hrow, hblock, hsrc.mono hpiece⟩
    · simp only [copies28_8]
      omega
    · simp only [copies28_8]
      exact Nat.le_trans hend hlen

theorem copiesCook_dst (t : RaTrack) (spc x : Nat) :
    (copiesCook t).dst spc x = t.sps * (t.sph * x + cookSlot t spc) := by
  simp only [copiesCook, cookSlot, Nat.add_assoc]

theorem copiesCook_ints {t : RaTrack} {x : Nat} : (∀ n ∈ (copiesCook t).ints spc x, IsInt n) ↔
    IsInt (t.sps * (t.sph * x + cookSlot t spc)) ∧ IsInt (t.sps * x) := by
  simp only [copiesCook, cookSlot, Nat.add_assoc, List.forall_mem_cons, List.not_mem_nil,
    false_implies, implies_true, and_true]

/-- The copies of a row end in the row. -/
theorem copiesCook_room {t : RaTrack} {x : Nat} (hspc : spc < t.sph) (hx : x < t.w / t.sps) :
    t.sps * (t.sph * x + cookSlot t spc) + t.sps ≤ t.sph * t.w := by
  have hslot := cookSlot_lt hspc
  calc t.sps * (t.sph * x + cookSlot t spc) + t.sps
      = t.sps * (t.sph * x + (cookSlot t spc + 1)) := by
        rw [← Nat.mul_succ]
        rfl
    _ ≤ t.sps * (t.sph * x + t.sph) := Nat.mul_le_mul_left _ (Nat.add_le_add_left hslot _)
    _ = t.sps * (t.sph * (x + 1)) := by rw [Nat.mul_succ]
    _ ≤ t.sps * (t.sph * (t.w / t.sps)) := Nat.mul_le_mul_left _ (Nat.mul_le_mul_left _ hx)
    _ = t.sph * (t.sps * (t.w / t.sps)) := Nat.mul_left_comm _ _ _
    _ ≤ t.sph * t.w := Nat.mul_le_mul_left _ (Nat.mul_div_le _ _)

theorem copiesCook_fits {t : RaTrack} (hsps : t.sps ≠ 0) (hspc : spc < t.sph) :
    (copiesCook t).Fits spc (t.sph * t.w) len ↔ t.sps * (t.w / t.sps) ≤ len ∧
      (t.sps ≤ t.w → IsInt (t.sps * (t.sph * (t.w / t.sps - 1) + cookSlot t spc))) := by
  constructor
  · intro h
    constructor
    · cases hn : t.w / t.sps with
      | zero => exact Nat.zero_le len
      | succ n => exact (h n (Nat.lt_of_lt_of_eq (Nat.lt_succ_self n) hn.symm)).enough
    · intro hle
      have hpos : 0 < t.w / t.sps := Nat.div_pos hle (Nat.pos_of_ne_zero hsps)
      have hlast := h (t.w / t.sps - 1) (Nat.sub_lt hpos Nat.one_pos)
      exact (copiesCook_ints.mp hlast.ints).1
  · rintro ⟨hlen, hint⟩ x hx
    have hx : x < t.w / t.sps := hx
    have hle : t.sps ≤ t.w := by
      refine Nat.not_lt.mp fun hlt => ?_
      rw [Nat.div_eq_of_lt hlt] at hx
      exact Nat.not_lt_zero x hx
    have hrow : t.sph * x ≤ t.sph * (t.w / t.sps - 1) :=
      Nat.mul_le_mul_left _ (Nat.le_sub_one_of_lt hx)
    have hdst : IsInt (t.sps * (t.sph * x + cookSlot t spc)) :=
      (hint hle).mono (Nat.mul_le_mul_left _ (Nat.add_le_add_right hrow _))
    have hsrc : t.sps * x ≤ t.sps * (t.sph * x + cookSlot t spc) := by
      refine Nat.mul_le_mul_left _ (Nat.le_trans ?_ (Nat.le_add_right _ _))
      exact Nat.le_mul_of_pos_left x (Nat.lt_of_le_of_lt (Nat.zero_le _) hspc)
    refine ⟨copiesCook_ints.mpr ⟨hdst, hdst.mono hsrc⟩, ?_, ?_⟩
    · rw [copiesCook_dst]
      exact copiesCook_room hspc hx
    · exact Nat.le_trans (Nat.mul_le_mul_left t.sps hx) hlen

theorem copiesSipr_fits {t : RaTrack} (hspc : spc < t.sph) :
    (copiesSipr t).Fits spc (t.sph * t.w) len ↔ t.w ≤ len ∧ IsInt (spc * t.w) := by
  have hroom : spc * t.w + t.w ≤ t.sph * t.w := by
    rw [← Nat.succ_mul]
    exact Nat.mul_le_mul_right t.w hspc
  constructor
  · intro h
    obtain ⟨hints, -, hlen⟩ := h 0 Nat.one_pos
    exact ⟨Nat.zero_add t.w ▸ hlen, hints _ (List.mem_singleton_self _)⟩
  · rintro ⟨hlen, hdst⟩ x -
    refine ⟨fun n hn => ?_, hroom, (Nat.zero_add t.w).symm ▸ hlen⟩
    rw [List.mem_singleton.mp hn]
    exact hdst

/-! ## A block -/

theorem storeBlock_sipr {t : RaTrack} {audioBuf buffer : List UInt8} (hcodec : t.codec = .sipr)
    (hspc : spc < t.sph) (hlen : audioBuf.length = t.sph * t.w) :
    (StoreFits t spc buffer.length →
      ∃ res, storeBlock t spc audioBuf buffer = .ok res ∧ res.length = audioBuf.length) ∧
    (¬StoreFits t spc buffer.length → storeBlock t spc audioBuf buffer = .error .undefined) := by
  obtain ⟨hok, herror⟩ := (copiesSipr t).store_spec spc audioBuf buffer
  rw [hlen, copiesSipr_fits hspc] at hok herror
  simp only [StoreFits, storeBlock, hcodec]
  constructor
  · rintro ⟨hw, hint, hlast⟩
    obtain ⟨mid, hmid, hstored⟩ := hok ⟨hw, hint⟩
    rw [hmid, ok_bind]
    split
    · next hend =>
      have hbs : t.sph * t.w * 2 / 96 * 96 ≤ 2 * mid.length := by
        rw [hstored.length, hlen]
        omega
      obtain ⟨res, hres, hreordered⟩ := siprReorder_follows hbs
      refine ⟨res, ?_, hreordered.length.trans hstored.length⟩
      rw [toInt_ok (hlast hend), ok_bind, hres]
    · exact ⟨mid, rfl, hstored.length⟩
  · intro hnot
    by_cases hfits : t.w ≤ buffer.length ∧ IsInt (spc * t.w)
    · obtain ⟨mid, hmid, -⟩ := hok hfits
      rw [hmid, ok_bind]
      split
      · next hend =>
        rw [toInt_error fun hint => hnot ⟨hfits.1, hfits.2, fun _ => hint⟩, error_bind]
      · next hend => exact absurd ⟨hfits.1, hfits.2, fun h => absurd h hend⟩ hnot
    · rw [herror hfits, error_bind]

/-- A block is stored if it fits, and else that is undefined. -/
theorem storeBlock_spec {t : RaTrack} {audioBuf : List UInt8} (buffer : List UInt8)
    (hspc : spc < t.sph) (hlen : audioBuf.length = t.sph * t.w) :
    (StoreFits t spc buffer.length →
      ∃ res, storeBlock t spc audioBuf buffer = .ok res ∧ res.length = audioBuf.length) ∧
    (¬StoreFits t spc buffer.length → storeBlock t spc audioBuf buffer = .error .undefined) := by
  have hcook : (t.sps ≠ 0 ∧ t.sps * (t.w / t.sps) ≤ buffer.length ∧
      (t.sps ≤ t.w → IsInt (t.sps * (t.sph * (t.w / t.sps - 1) + cookSlot t spc))) →
      ∃ res, (if t.sps = 0 then .error .undefined
        else (copiesCook t).store spc audioBuf buffer) = .ok res ∧ res.length = audioBuf.length) ∧
      (¬(t.sps ≠ 0 ∧ t.sps * (t.w / t.sps) ≤ buffer.length ∧
        (t.sps ≤ t.w → IsInt (t.sps * (t.sph * (t.w / t.sps - 1) + cookSlot t spc)))) →
      (if t.sps = 0 then .error .undefined
        else (copiesCook t).store spc audioBuf buffer) = .error .undefined) := by
    obtain ⟨hok, herror⟩ := (copiesCook t).store_spec spc audioBuf buffer
    by_cases hsps : t.sps = 0
    · exact ⟨fun h => absurd hsps h.1, fun _ => if_pos hsps⟩
    · rw [hlen, copiesCook_fits hsps hspc] at hok herror
      rw [if_neg hsps]
      refine ⟨fun h => ?_, fun h => herror fun hfits => h ⟨hsps, hfits⟩⟩
      obtain ⟨res, hres, hstored⟩ := hok h.2
      exact ⟨res, hres, hstored.length⟩
  cases hcodec : t.codec with
  | sipr => exact storeBlock_sipr hcodec hspc hlen
  | cook =>
    simp only [StoreFits, storeBlock, hcodec]
    exact hcook
  | atrc =>
    simp only [StoreFits, storeBlock, hcodec]
    exact hcook
  | other =>
    simp only [StoreFits, storeBlock, hcodec]
    exact ⟨fun _ => ⟨audioBuf, rfl, rfl⟩, fun h => absurd trivial h⟩
  | i28_8 =>
    simp only [StoreFits, storeBlock, hcodec]
    obtain ⟨hok, herror⟩ := (copies28_8 t).store_spec spc audioBuf buffer
    rw [hlen, copies28_8_fits] at hok herror
    have hhalf : 0 < t.sph / 2 ↔ 1 < t.sph := by omega
    by_cases hcfs : 0 < t.sph / 2 ∧ t.cfs < 0
    · rw [if_pos hcfs]
      exact ⟨fun h => absurd (h (hhalf.mp hcfs.1)).1 (Int.not_le.mpr hcfs.2), fun _ => rfl⟩
    · rw [if_neg hcfs]
      constructor
      · intro h
        obtain ⟨res, hres, hstored⟩ := hok fun hsph => (h hsph).2
        exact ⟨res, hres, hstored.length⟩
      · intro h
        refine herror fun hfits => h fun hsph => ⟨?_, hfits hsph⟩
        exact Int.not_lt.mp fun hneg => hcfs ⟨hhalf.mpr hsph, hneg⟩

/-! ## A call -/

section Calls

variable {T : Type} {t : RaTrack}

/-- The buffers have the sizes that `demux_mkv_open_audio` gives them, and the blocks are
counted below `sub_packet_h`. -/
structure RaState.Good (t : RaTrack) (s : RaState T) : Prop where
  cnt : s.subPacketCnt < t.sph
  audioBuf : s.audioBuf.length = t.sph * t.w
  audioTimestamp : s.audioTimestamp.length = t.sph

theorem RaState.start_good [Zero T] (h : 0 < t.sph) : (RaState.start t : RaState T).Good t :=
  ⟨h, List.length_replicate, List.length_replicate⟩

/-- Each block fits where it is put, if the first one is block `c`. -/
def BlocksFit (t : RaTrack) (c : Nat) (calls : List (RaEnv T × List UInt8)) : Prop :=
  ∀ i b, calls[i]? = some b → BlockFits t ((c + i) % t.sph) b.2.length

variable {c : Nat} {calls : List (RaEnv T × List UInt8)}

theorem blocksFit_cons {b : RaEnv T × List UInt8} :
    BlocksFit t c (b :: calls) ↔
      BlockFits t (c % t.sph) b.2.length ∧ BlocksFit t (c + 1) calls := by
  constructor
  · intro h
    refine ⟨h 0 b rfl, fun i b' hb' => ?_⟩
    rw [Nat.add_assoc, Nat.add_comm 1 i]
    exact h (i + 1) b' hb'
  · rintro ⟨hfirst, hrest⟩ i b' hb'
    cases i with
    | zero =>
      cases hb'
      exact hfirst
    | succ i =>
      rw [Nat.add_comm i 1, ← Nat.add_assoc]
      exact hrest i b' hb'

theorem blocksFit_other (h : t.codec = .other) : BlocksFit t c calls := fun _ _ _ => .inl h

theorem blocksFit_mod : BlocksFit t (c % t.sph) calls ↔ BlocksFit t c calls := by
  simp only [BlocksFit, Nat.mod_add_mod]

variable [Zero T] {s : RaState T}

/-- A packet that begins in the buffer has a time. -/
theorem packetPts_ok {i : Nat} (hstamps : s.audioTimestamp.length = t.sph) (hi : i < t.sph * t.w) :
    ∃ pts, packetPts t s i = .ok pts := by
  have hw : t.w ≠ 0 := by
    intro hw
    rw [hw, Nat.mul_zero] at hi
    exact Nat.not_lt_zero i hi
  have hstamp : i / t.w < s.audioTimestamp.length := by
    rw [hstamps]
    exact (Nat.div_lt_iff_lt_mul (Nat.pos_of_ne_zero hw)).mpr hi
  rw [packetPts, if_neg hw, List.getElem?_eq_getElem hstamp]
  split
  · exact ⟨_, rfl⟩
  · exact ⟨_, rfl⟩

/-- The packets are the buffer cut into pieces. -/
theorem releasePackets_ok (hbuf : s.audioBuf.length = t.sph * t.w)
    (hstamps : s.audioTimestamp.length = t.sph) (halign : t.nBlockAlign ≠ 0)
    (hint : IsInt (t.sph * t.w)) :
    ∃ packets, releasePackets t s = .ok packets ∧
      packets.map RaPacket.buffer = (List.range (t.sph * t.w / t.nBlockAlign)).map fun x =>
        (s.audioBuf.drop (x * t.nBlockAlign)).take t.nBlockAlign := by
  rw [releasePackets, toInt_ok hint, ok_bind, if_neg halign]
  refine mapM_ok fun x hx => ?_
  have hx := List.mem_range.mp hx
  have hend : x * t.nBlockAlign + t.nBlockAlign ≤ t.sph * t.w := by
    rw [← Nat.succ_mul]
    exact Nat.le_trans (Nat.mul_le_mul_right _ hx) (Nat.div_mul_le_self _ _)
  obtain ⟨pts, hpts⟩ := packetPts_ok (i := x * t.nBlockAlign) hstamps (by omega)
  rw [releasePacket, toInt_ok (hint.mono (by omega)), ok_bind, hpts, ok_bind, hbuf, if_pos hend]
  exact ⟨_, rfl, rfl⟩

/-- Without an `int` for the size of the buffer, or with empty packets, nothing can be released. -/
theorem releasePackets_error (h : ¬(t.nBlockAlign ≠ 0 ∧ IsInt (t.sph * t.w))) :
    releasePackets t s = .error .undefined := by
  rw [releasePackets]
  by_cases hint : IsInt (t.sph * t.w)
  · rw [toInt_ok hint, ok_bind, if_pos (Decidable.byContradiction fun halign => h ⟨halign, hint⟩)]
  · rw [toInt_error hint, error_bind]

/-- Behind a block that is not the last one nothing is needed. -/
theorem releaseFull_spec (hpos : 0 < t.sph) (hcnt : s.subPacketCnt ≤ t.sph)
    (hbuf : s.audioBuf.length = t.sph * t.w) (hstamps : s.audioTimestamp.length = t.sph) :
    ((s.subPacketCnt = t.sph → t.nBlockAlign ≠ 0 ∧ IsInt (t.sph * t.w)) →
      ∃ r, releaseFull t s = .ok r ∧ r.1.Good t ∧ r.1.subPacketCnt = s.subPacketCnt % t.sph) ∧
    (¬(s.subPacketCnt = t.sph → t.nBlockAlign ≠ 0 ∧ IsInt (t.sph * t.w)) →
      releaseFull t s = .error .undefined) := by
  rw [releaseFull]
  by_cases hend : s.subPacketCnt = t.sph
  · rw [if_pos hend]
    constructor
    · intro h
      obtain ⟨halign, hint⟩ := h hend
      obtain ⟨packets, hpackets, -⟩ := releasePackets_ok hbuf hstamps halign hint
      refine ⟨_, by rw [hpackets, ok_bind], ⟨hpos, hbuf, hstamps⟩, ?_⟩
      rw [hend, Nat.mod_self]
    · intro h
      rw [releasePackets_error fun hfits => h fun _ => hfits, error_bind]
  · have hlt : s.subPacketCnt < t.sph := Nat.lt_of_le_of_ne hcnt hend
    rw [if_neg hend]
    refine ⟨fun _ => ⟨_, rfl, ⟨hlt, hbuf, hstamps⟩, (Nat.mod_eq_of_lt hlt).symm⟩, fun h => ?_⟩
    exact absurd (fun h' => absurd h' hend) h

variable [DecidableEq T]

/-- A call goes on if its block fits, and else it is undefined. -/
theorem handleRealaudio_spec (e : RaEnv T) (hs : s.Good t) (buffer : List UInt8) :
    (BlockFits t s.subPacketCnt buffer.length →
      ∃ r, handleRealaudio t e s buffer = .ok r ∧ r.1.Good t ∧
        (t.codec ≠ .other → r.1.subPacketCnt = (s.subPacketCnt + 1) % t.sph)) ∧
    (¬BlockFits t s.subPacketCnt buffer.length →
      handleRealaudio t e s buffer = .error .undefined) := by
  rw [handleRealaudio]
  by_cases hother : t.codec = .other
  · rw [if_pos hother]
    exact ⟨fun _ => ⟨_, rfl, ⟨hs.cnt, hs.audioBuf, hs.audioTimestamp⟩, fun h => absurd hother h⟩,
      fun h => absurd (.inl hother) h⟩
  · obtain ⟨hok, herror⟩ := storeBlock_spec buffer hs.cnt hs.audioBuf
    rw [if_neg hother]
    by_cases hstore : StoreFits t s.subPacketCnt buffer.length
    · obtain ⟨audioBuf, hbuf, hlen⟩ := hok hstore
      have hroom : ¬s.audioTimestamp.length ≤ s.subPacketCnt :=
        Nat.not_le.mpr (hs.audioTimestamp ▸ hs.cnt)
      have hpos : 0 < t.sph := Nat.lt_of_le_of_lt (Nat.zero_le _) hs.cnt
      obtain ⟨hfull, hbad⟩ := releaseFull_spec (s := s.stored e audioBuf) hpos hs.cnt
        (hlen.trans hs.audioBuf) (List.length_set.trans hs.audioTimestamp)
      rw [hbuf, ok_bind, if_neg hroom]
      constructor
      · intro hfits
        obtain ⟨r, hr, hgood, hcnt⟩ := hfull (hfits.resolve_left hother).2
        exact ⟨r, hr, hgood, fun _ => hcnt⟩
      · intro hnot
        exact hbad fun h => hnot (.inr ⟨hstore, h⟩)
    · refine ⟨fun h => absurd (h.resolve_left hother).1 hstore, fun _ => ?_⟩
      rw [herror hstore, error_bind]

/-! ## A run -/

/-- A run goes on as long as the blocks fit. -/
theorem handleBlocks_spec (hs : s.Good t) :
    (BlocksFit t s.subPacketCnt calls → ∃ r, handleBlocks t calls s = .ok r ∧ r.1.Good t) ∧
    (¬BlocksFit t s.subPacketCnt calls → handleBlocks t calls s = .error .undefined) := by
  induction calls generalizing s with
  | nil => exact ⟨fun _ => ⟨_, rfl, hs⟩, fun h => absurd (fun i b hb => by cases hb) h⟩
  | cons b calls ih =>
    obtain ⟨e, buffer⟩ := b
    obtain ⟨hok, herror⟩ := handleRealaudio_spec e hs buffer
    rw [blocksFit_cons, Nat.mod_eq_of_lt hs.cnt, handleBlocks]
    by_cases hfirst : BlockFits t s.subPacketCnt buffer.length
    · obtain ⟨r, hr, hgood, hcnt⟩ := hok hfirst
      have hrest : BlocksFit t r.1.subPacketCnt calls ↔ BlocksFit t (s.subPacketCnt + 1) calls := by
        by_cases hother : t.codec = .other
        · exact iff_of_true (blocksFit_other hother) (blocksFit_other hother)
        · rw [hcnt hother, blocksFit_mod]
      obtain ⟨hgo, hstop⟩ := ih hgood
      rw [hr, ok_bind]
      constructor
      · intro h
        obtain ⟨r', hr', hgood'⟩ := hgo (hrest.mpr h.2)
        refine ⟨(r'.1, r.2 ++ r'.2), ?_, hgood'⟩
        rw [hr', ok_bind]
      · intro h
        rw [hstop fun hfits => h ⟨hfirst, hrest.mp hfits⟩, error_bind]
    · refine ⟨fun h => absurd h.1 hfirst, fun _ => ?_⟩
      rw [herror hfirst, error_bind]

/-- Nothing undefined happens in a run, and the blocks are always counted below `sub_packet_h`. -/
def RealaudioSafe (t : RaTrack) (calls : List (RaEnv T × List UInt8)) : Prop :=
  ∀ n ≤ calls.length, ∃ r, handleBlocks t (calls.take n) (.start t) = .ok r ∧
    r.1.subPacketCnt < t.sph

/-- A run is safe exactly if there are blocks to count, and each block fits where it is put. -/
theorem realaudio_safe_iff {t : RaTrack} {calls : List (RaEnv T × List UInt8)} :
    RealaudioSafe t calls ↔
      0 < t.sph ∧ ∀ i b, calls[i]? = some b → BlockFits t (i % t.sph) b.2.length := by
  have hzero : BlocksFit t 0 calls ↔
      ∀ i b, calls[i]? = some b → BlockFits t (i % t.sph) b.2.length := by
    simp only [BlocksFit, Nat.zero_add]
  rw [← hzero]
  constructor
  · intro h
    obtain ⟨r, hr, hcnt⟩ := h 0 (Nat.zero_le _)
    have hr : Except.ok (RaState.start t, []) = Except.ok r := hr
    cases hr
    refine ⟨hcnt, Classical.byContradiction fun hnot => ?_⟩
    obtain ⟨r, hr, -⟩ := h calls.length Nat.le.refl
    rw [List.take_length, (handleBlocks_spec (RaState.start_good hcnt)).2 hnot] at hr
    cases hr
  · rintro ⟨hpos, hfits⟩ n -
    have hpre : BlocksFit t 0 (calls.take n) := by
      intro i b hb
      rw [List.getElem?_take] at hb
      split at hb
      · exact hfits i b hb
      · cases hb
    obtain ⟨r, hr, hgood⟩ := (handleBlocks_spec (RaState.start_good hpos)).1 hpre
    exact ⟨r, hr, hgood.cnt⟩

end Calls

/-- A block of one byte is too short for a packet size of two. -/
theorem realaudio_unsafe : ¬∀ (codec : RaCodec) (src : List UInt8) (t : RaTrack),
    demuxMkvOpenAudio codec src = some t →
    ∀ calls : List (RaEnv Nat × List UInt8), RealaudioSafe t calls := by
  intro h
  have haccept := demuxMkvOpenAudio_raHeader ⟨.cook, 0, 1, 2, 1⟩
  have hsafe := h _ _ _ haccept [(⟨1, 0, false, false⟩, [7])]
  obtain ⟨r, hr, -⟩ := hsafe 1 (by decide)
  cases hr

end MPlayer
