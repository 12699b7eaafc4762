import MPlayer.Lib.Bits
import Mathlib.Data.Nat.Size

/-!
# MPEG-4 video object headers

`mp_getbits` reads up to eight bits at a bit position (`mpGetbits_eq`), and the readers of MPEG-4
video object layer and video object plane headers move such a position over the fields.  The size
of the picture is read where the header has it exactly if the layer has no fixed time increment:
`read_timeinc` returns the position behind the increment, and its caller adds that to the position
it had (`volDecodes_iff`).

A read outside the buffer is `none`.  The frame rate, a float, is left out.
-/

namespace MPlayer.MpegHdr

open Lib

/-! ## Reading bits -/

/-- `mp_getbits`. -/
def mpGetbits (buffer : List UInt8) (start len : Nat) : Option Nat := do
  let n := start / 8
  let m := start % 8
  let u := 8 - m
  let l := if len > u then len - u else 0
  let y := ((← buffer[n]?).toNat <<< m) % 2 ^ 8
  let y := if 8 > len then y >>> (8 - len) else y
  if l ≠ 0 then
    let b ← buffer[n + 1]?
    return y ||| b.toNat >>> (8 - l)
  else
    return y

/-- `mp_getbits16`. -/
def mpGetbits16 (buffer : List UInt8) (start len : Nat) : Option Nat := do
  if len > 8 then
    let high ← mpGetbits buffer start (len - 8)
    let low ← mpGetbits buffer (start + len - 8) 8
    return high <<< 8 ||| low
  else
    mpGetbits buffer start len

/-- What is in one byte: the bits moved to its top and then to its bottom. -/
theorem shift_in_byte {b m len : Nat} (h : m + len ≤ 8) :
    ((b <<< m) % 2 ^ 8) >>> (8 - len) = (b >>> (8 - m - len)) % 2 ^ len := by
  apply Nat.eq_of_testBit_eq
  intro i
  simp only [Nat.testBit_shiftRight, Nat.testBit_mod_two_pow, Nat.testBit_shiftLeft]
  by_cases hi : i < len
  · have h1 : 8 - len + i < 8 := by omega
    have h2 : m ≤ 8 - len + i := by omega
    have h3 : 8 - len + i - m = 8 - m - len + i := by omega
    simp [h1, h2, h3, hi]
  · have h1 : ¬8 - len + i < 8 := by omega
    simp [h1, hi]

/-- What a byte has for the high part of bits that go on in the next one. -/
theorem shift_high {b m len : Nat} (hm : m < 8) (hlen : len ≤ 8) (h : 8 < m + len) :
    ((b <<< m) % 2 ^ 8) >>> (8 - len) = (b % 2 ^ (8 - m)) * 2 ^ (m + len - 8) := by
  rw [← Nat.shiftLeft_eq]
  apply Nat.eq_of_testBit_eq
  intro i
  simp only [Nat.testBit_shiftRight, Nat.testBit_mod_two_pow, Nat.testBit_shiftLeft]
  by_cases hi : m + len - 8 ≤ i
  · have h2 : m ≤ 8 - len + i := by omega
    have h3 : 8 - len + i - m = i - (m + len - 8) := by omega
    have h4 : 8 - len + i < 8 ↔ i - (m + len - 8) < 8 - m := by omega
    simp [h2, h3, h4, hi]
  · have h2 : ¬m ≤ 8 - len + i := by omega
    simp [h2, hi]

/-- `mp_getbits` without the special cases for no shift. -/
theorem mpGetbits_def (buffer : List UInt8) (start len : Nat) :
    mpGetbits buffer start len = buffer[start / 8]?.bind fun b =>
      if len > 8 - start % 8 then
        buffer[start / 8 + 1]?.bind fun b' =>
          some (((b.toNat <<< (start % 8)) % 2 ^ 8) >>> (8 - len) |||
            b'.toNat >>> (8 - (len - (8 - start % 8))))
      else some (((b.toNat <<< (start % 8)) % 2 ^ 8) >>> (8 - len)) := by
  have htop : ∀ y, (if 8 > len then y >>> (8 - len) else y) = y >>> (8 - len) := by
    intro y
    split
    · rfl
    · rw [Nat.sub_eq_zero_of_le (by omega), Nat.shiftRight_zero]
  unfold mpGetbits
  simp only [htop]
  by_cases hl : len > 8 - start % 8
  · have hne : len - (8 - start % 8) ≠ 0 := by omega
    simp only [hl, hne, if_true, ne_eq, not_false_eq_true]
    rfl
  · simp only [hl, if_false, ne_eq, not_true_eq_false]
    rfl

/-- Up to eight bits are read from where they are. -/
theorem mpGetbits_eq {buffer : List UInt8} {n : Nat} {l : List Bool} (h : BitsAt buffer n l)
    (hl : l ≠ []) (hlen : l.length ≤ 8) :
    mpGetbits buffer n l.length = some (bitsNat l) := by
  have hm : n % 8 < 8 := Nat.mod_lt n (by decide)
  rw [mpGetbits_def]
  by_cases hin : n % 8 + l.length ≤ 8
  · obtain ⟨b, hb, hval⟩ := h.one_byte hl hin
    have hno : ¬l.length > 8 - n % 8 := by omega
    rw [hb, Option.bind_some, if_neg hno, shift_in_byte hin, hval]
  · have hout : 8 < n % 8 + l.length := by omega
    obtain ⟨b, b', hb, hb', hval⟩ := h.two_bytes hlen hout
    have hyes : l.length > 8 - n % 8 := by omega
    have hshift : 8 - (l.length - (8 - n % 8)) = 16 - n % 8 - l.length := by omega
    have hlow : b'.toNat >>> (16 - n % 8 - l.length) < 2 ^ (n % 8 + l.length - 8) := by
      rw [Nat.shiftRight_eq_div_pow, Nat.div_lt_iff_lt_mul (Nat.two_pow_pos _), ← Nat.pow_add,
        show n % 8 + l.length - 8 + (16 - n % 8 - l.length) = 8 by omega]
      exact b'.toNat_lt
    rw [hb, Option.bind_some, if_pos hyes, hb', Option.bind_some, shift_high hm hlen hout, hshift,
      hval, Nat.mul_comm, Nat.two_pow_add_eq_or_of_lt hlow]

variable {buffer : List UInt8} {n w v : Nat}

theorem mpGetbits_bit {b : Bool} (h : BitsAt buffer n [b]) :
    mpGetbits buffer n 1 = some b.toNat := by
  simpa [bitsNat] using mpGetbits_eq h (by simp) (by simp)

theorem mpGetbits_nat (h : BitsAt buffer n (natBits w v)) (hw : 0 < w) (hw8 : w ≤ 8) :
    mpGetbits buffer n w = some (v % 2 ^ w) := by
  have hne : natBits w v ≠ [] := List.ne_nil_of_length_pos (by simpa using hw)
  simpa [bitsNat_natBits_mod] using mpGetbits_eq h hne (by simpa using hw8)

/-- The two parts of a number of more than eight bits. -/
theorem high_or_low (v w : Nat) : ((v >>> 8) % 2 ^ w) <<< 8 ||| v % 2 ^ 8 = v % 2 ^ (w + 8) := by
  have hlow : v % 2 ^ 8 < 2 ^ 8 := Nat.mod_lt v (by decide)
  rw [Nat.shiftLeft_eq, Nat.mul_comm, ← Nat.two_pow_add_eq_or_of_lt hlow,
    Nat.shiftRight_eq_div_pow, Nat.add_comm w, Nat.pow_add, Nat.mod_mul, Nat.add_comm]

theorem bitsAt_natBits_high (h : BitsAt buffer n (natBits (w + 8) v)) :
    BitsAt buffer n (natBits w (v >>> 8)) ∧ BitsAt buffer (n + w) (natBits 8 v) := by
  rw [natBits_add, bitsAt_append, length_natBits] at h
  exact h

theorem mpGetbits16_nat (h : BitsAt buffer n (natBits w v)) (hw : 0 < w) (hw16 : w ≤ 16) :
    mpGetbits16 buffer n w = some (v % 2 ^ w) := by
  unfold mpGetbits16
  split
  · rename_i h8
    obtain ⟨u, rfl⟩ := Nat.exists_eq_add_of_lt h8
    rw [show 8 + u + 1 = u + 1 + 8 by omega] at h ⊢
    obtain ⟨hhigh, hlow⟩ := bitsAt_natBits_high h
    have hpos : n + (u + 1 + 8) - 8 = n + (u + 1) := by omega
    rw [hpos, Nat.add_sub_cancel, mpGetbits_nat hhigh (by omega) (by omega),
      mpGetbits_nat hlow (by omega) (by omega)]
    exact congrArg some (high_or_low v (u + 1))
  · exact mpGetbits_nat h hw (by omega)

/-! ## The readers -/

/-- The fields of `mp_mpeg_header_t` that the readers of MPEG-4 and H.264 headers set. -/
structure MpegHeader where
  displayPictureWidth : Nat
  displayPictureHeight : Nat
  aspectRatioInformation : Nat
  timeincResolution : Nat
  timeincBits : Nat
  timeincUnit : Nat
  pictureType : Nat
deriving DecidableEq

/-- `read_timeinc`: the header, and the position behind what it read. -/
def readTimeinc (picture : MpegHeader) (buffer : List UInt8) (n : Nat) :
    Option (MpegHeader × Nat) := do
  if picture.timeincBits > 8 then
    let high ← mpGetbits buffer n (picture.timeincBits - 8)
    let n := n + (picture.timeincBits - 8)
    let low ← mpGetbits buffer n 8
    return ({ picture with timeincUnit := high <<< 8 ||| low }, n + 8)
  else
    let unit ← mpGetbits buffer n picture.timeincBits
    return ({ picture with timeincUnit := unit }, n + picture.timeincBits)

/-- The part of `mp4_header_process_vol` that skips the control parameters. -/
def skipControl (buffer : List UInt8) (n : Nat) : Option Nat := do
  if (← mpGetbits buffer n 1) ≠ 0 then
    let n := n + 4
    let n := if (← mpGetbits buffer n 1) ≠ 0 then n + 79 else n
    return n + 1
  else
    return n + 1

/-- `mp4_header_process_vol` up to the resolution: the position there. -/
def volHead (buffer : List UInt8) : Option Nat := do
  let n := 9
  let n := if (← mpGetbits buffer n 1) ≠ 0 then n + 7 else n
  let n := n + 1
  let aspect ← mpGetbits buffer n 4
  let n := n + 4
  -- custom aspect
  let n := if aspect = 0x0f then n + 16 else n
  let n ← skipControl buffer n
  return n + 3

/-- The loop that counts the bits of a 32-bit number. -/
def countBits : Nat → Nat → Nat
  | 0, _ => 0
  | fuel + 1, v => if v = 0 then 0 else countBits fuel (v >>> 1) + 1

/-- `timeinc_bits` for a resolution, whose predecessor is an `unsigned int`. -/
def timeincBitsOf (resolution : Nat) : Nat :=
  let bits := countBits 32 ((resolution + (2 ^ 32 - 1)) % 2 ^ 32)
  if bits > 1 then bits else 1

/-- The last part of `mp4_header_process_vol`, from the marker before the width on. -/
def volSize (picture : MpegHeader) (buffer : List UInt8) (n : Nat) : Option MpegHeader := do
  let n := n + 1
  let width ← mpGetbits16 buffer n 13
  let n := n + 13
  -- marker bit
  let n := n + 1
  let height ← mpGetbits16 buffer n 13
  return { picture with displayPictureWidth := width, displayPictureHeight := height }

/-- `mp4_header_process_vol`. -/
def mp4HeaderProcessVol (picture : MpegHeader) (buffer : List UInt8) : Option MpegHeader := do
  let n ← volHead buffer
  let high ← mpGetbits buffer n 8
  let n := n + 8
  let low ← mpGetbits buffer n 8
  let n := n + 8
  let resolution := high <<< 8 ||| low
  let picture := { picture with
    timeincResolution := resolution, timeincBits := timeincBitsOf resolution, timeincUnit := 0 }
  -- marker bit
  let n := n + 1
  let fixed ← mpGetbits buffer n 1
  let n := n + 1
  if fixed ≠ 0 then
    let (picture, k) ← readTimeinc picture buffer n
    volSize picture buffer (n + k)
  else
    volSize picture buffer n

/-- The loop of `mp4_header_process_vop` over `modulo_time_base`. -/
def skipOnes (buffer : List UInt8) : Nat → Nat → Option Nat
  | 0, _ => none
  | fuel + 1, n => do
    if (← mpGetbits buffer n 1) ≠ 0 then skipOnes buffer fuel (n + 1) else return n

/-- `mp4_header_process_vop`.  Its loop meets a zero, or the end of the buffer. -/
def mp4HeaderProcessVop (picture : MpegHeader) (buffer : List UInt8) : Option MpegHeader := do
  let type ← mpGetbits buffer 0 2
  let picture := { picture with pictureType := type }
  let n ← skipOnes buffer (8 * buffer.length + 1) 2
  let n := n + 1
  let _ ← mpGetbits buffer n 1
  let n := n + 1
  let (picture, _) ← readTimeinc picture buffer n
  return picture

/-! ## The headers -/

/-- The bits a time increment takes below a resolution. -/
def timeBits (resolution : Nat) : Nat := max 1 (Nat.size (resolution - 1))

/-- A rectangular video object layer. -/
structure Vol where
  randomAccessible : Bool
  objectType : BitVec 8
  /-- Version and priority, with `is_object_layer_identifier`. -/
  layerId : Option (BitVec 7)
  aspect : BitVec 4
  /-- Width and height of a pixel, there with an extended aspect ratio. -/
  parSize : BitVec 16
  /-- Chroma format and `low_delay`, and the VBV parameters with their markers. -/
  control : Option (BitVec 3 × Option (BitVec 79))
  resolution : BitVec 16
  resolution_pos : 1 ≤ resolution.toNat
  /-- With `fixed_vop_rate`, the time increment. -/
  fixedTimeinc : Option (BitVec (timeBits resolution.toNat))
  width : BitVec 13
  height : BitVec 13

/-- A video object plane of a layer whose time increments have this many bits. -/
structure Vop (w : Nat) where
  codingType : BitVec 2
  moduloTimeBase : Nat
  timeinc : BitVec w

def layerIdBits : Option (BitVec 7) → List Bool
  | none => [false]
  | some id => true :: natBits 7 id.toNat

def aspectBits (aspect : BitVec 4) (parSize : BitVec 16) : List Bool :=
  natBits 4 aspect.toNat ++ if aspect = 15 then natBits 16 parSize.toNat else []

def controlBits : Option (BitVec 3 × Option (BitVec 79)) → List Bool
  | none => [false]
  | some (chroma, none) => true :: (natBits 3 chroma.toNat ++ [false])
  | some (chroma, some vbv) => true :: (natBits 3 chroma.toNat ++ true :: natBits 79 vbv.toNat)

/-- The header up to the resolution: shape and a marker are last. -/
def Vol.headBits (v : Vol) : List Bool :=
  v.randomAccessible :: natBits 8 v.objectType.toNat ++ (layerIdBits v.layerId ++
    (aspectBits v.aspect v.parSize ++ (controlBits v.control ++ [false, false, true])))

def Vol.timeincBits (v : Vol) : List Bool :=
  match v.fixedTimeinc with
  | none => []
  | some t => natBits (timeBits v.resolution.toNat) t.toNat

/-- The header behind the start code, up to the height. -/
def Vol.bits (v : Vol) : List Bool :=
  v.headBits ++ (natBits 16 v.resolution.toNat ++ (true :: v.fixedTimeinc.isSome ::
    (v.timeincBits ++ (true :: natBits 13 v.width.toNat ++ (true :: natBits 13 v.height.toNat)))))

/-- The plane behind its start code, up to the time increment. -/
def Vop.bits {w : Nat} (v : Vop w) : List Bool :=
  natBits 2 v.codingType.toNat ++ (List.replicate v.moduloTimeBase true ++
    (false :: true :: natBits w v.timeinc.toNat))

/-- Every buffer that starts with the header is read as the header says, and every plane behind
it. -/
def VolDecodes (v : Vol) : Prop :=
  ∀ (picture : MpegHeader) (buffer : List UInt8), BitsAt buffer 0 v.bits →
    ∃ picture', mp4HeaderProcessVol picture buffer = some picture' ∧
      picture'.displayPictureWidth = v.width.toNat ∧
      picture'.displayPictureHeight = v.height.toNat ∧
      picture'.timeincResolution = v.resolution.toNat ∧
      (∀ t, v.fixedTimeinc = some t → picture'.timeincUnit = t.toNat) ∧
      ∀ (vop : Vop (timeBits v.resolution.toNat)) (buffer' : List UInt8),
        BitsAt buffer' 0 vop.bits →
          ∃ picture'', mp4HeaderProcessVop picture' buffer' = some picture'' ∧
          picture''.pictureType = vop.codingType.toNat ∧
          picture''.timeincUnit = vop.timeinc.toNat

/-! ## The time increment -/

theorem countBits_eq {fuel : Nat} (h : v < 2 ^ fuel) : countBits fuel v = Nat.size v := by
  induction fuel generalizing v with
  | zero =>
    have : v = 0 := by omega
    simp [this, countBits]
  | succ fuel ih =>
    rw [countBits]
    split
    · rename_i h0
      simp [h0]
    · rename_i h0
      have hhalf : v >>> 1 < 2 ^ fuel := by
        rw [Nat.shiftRight_eq_div_pow]
        omega
      rw [ih hhalf]
      have hbit := Nat.bit_bodd_div2 v
      rw [← hbit, Nat.size_bit (by rw [hbit]; exact h0), hbit, Nat.shiftRight_one, Nat.div2_val]

theorem timeincBitsOf_eq {r : Nat} (h : 1 ≤ r) (h16 : r < 2 ^ 16) :
    timeincBitsOf r = timeBits r := by
  have hv : (r + (2 ^ 32 - 1)) % 2 ^ 32 = r - 1 := by omega
  unfold timeincBitsOf timeBits
  simp only [hv]
  rw [countBits_eq (by omega)]
  split <;> omega

theorem timeBits_le {r : Nat} (h16 : r < 2 ^ 16) : timeBits r ≤ 16 := by
  have : Nat.size (r - 1) ≤ 16 := Nat.size_le.2 (by omega)
  unfold timeBits
  omega

theorem timeBits_pos (r : Nat) : 0 < timeBits r := by
  unfold timeBits
  omega

/-- `read_timeinc` reads as many bits as there are. -/
theorem readTimeinc_eq {picture : MpegHeader} {buffer : List UInt8} {n v : Nat}
    (h : BitsAt buffer n (natBits picture.timeincBits v)) (hpos : 0 < picture.timeincBits)
    (h16 : picture.timeincBits ≤ 16) :
    readTimeinc picture buffer n =
      some ({ picture with timeincUnit := v % 2 ^ picture.timeincBits },
        n + picture.timeincBits) := by
  unfold readTimeinc
  split
  · rename_i h8
    obtain ⟨w, hw⟩ := Nat.exists_eq_add_of_lt h8
    have hw' : picture.timeincBits = w + 1 + 8 := by omega
    rw [hw'] at h ⊢
    obtain ⟨hhigh, hlow⟩ := bitsAt_natBits_high h
    rw [Nat.add_sub_cancel, mpGetbits_nat hhigh (by omega) (by omega)]
    have hval := high_or_low v (w + 1)
    simp only [Option.bind_eq_bind, Option.bind_some, mpGetbits_nat hlow (by omega) (by omega),
      hval]
    rfl
  · rw [mpGetbits_nat h hpos (by omega)]
    rfl

/-! ## The fields -/

theorem layerIdBits_eq {id : Option (BitVec 7)} (h : BitsAt buffer n (layerIdBits id)) :
    ∃ b, mpGetbits buffer n 1 = some b ∧
      (if b ≠ 0 then n + 7 else n) + 1 = n + (layerIdBits id).length := by
  cases id with
  | none => exact ⟨0, mpGetbits_bit h, rfl⟩
  | some id =>
    refine ⟨1, mpGetbits_bit (bitsAt_cons.1 h).1, ?_⟩
    simp [layerIdBits]

theorem aspectBits_eq {aspect : BitVec 4} {par : BitVec 16}
    (h : BitsAt buffer n (aspectBits aspect par)) :
    ∃ a, mpGetbits buffer n 4 = some a ∧
      (if a = 0x0f then n + 4 + 16 else n + 4) = n + (aspectBits aspect par).length := by
  have ha := mpGetbits_nat (bitsAt_append.1 h).1 (by decide) (by decide)
  rw [Nat.mod_eq_of_lt aspect.isLt] at ha
  refine ⟨_, ha, ?_⟩
  have hiff : aspect.toNat = 0x0f ↔ aspect = 15 := by
    rw [← BitVec.toNat_inj]
    rfl
  simp only [hiff, aspectBits]
  split <;> simp

theorem controlBits_eq {control : Option (BitVec 3 × Option (BitVec 79))}
    (h : BitsAt buffer n (controlBits control)) :
    skipControl buffer n = some (n + (controlBits control).length) := by
  unfold skipControl
  match control with
  | none =>
    rw [mpGetbits_bit h]
    rfl
  | some (chroma, none) =>
    obtain ⟨h1, h2⟩ := bitsAt_cons.1 h
    have h3 := (bitsAt_append.1 h2).2
    rw [length_natBits] at h3
    simp [mpGetbits_bit h1, mpGetbits_bit h3, controlBits]
  | some (chroma, some vbv) =>
    obtain ⟨h1, h2⟩ := bitsAt_cons.1 h
    have h3 := (bitsAt_cons.1 (bitsAt_append.1 h2).2).1
    rw [length_natBits] at h3
    simp [mpGetbits_bit h1, mpGetbits_bit h3, controlBits]

/-- The reader comes to the resolution. -/
theorem volHead_eq {v : Vol} (h : BitsAt buffer 0 v.headBits) :
    volHead buffer = some v.headBits.length := by
  unfold Vol.headBits at h ⊢
  simp only [List.cons_append, bitsAt_cons (l := _ ++ _), bitsAt_append, length_natBits] at h
  obtain ⟨-, -, hid, haspect, hcontrol, -⟩ := h
  obtain ⟨b, hb, hn⟩ := layerIdBits_eq (n := 9) hid
  obtain ⟨a, ha, hm⟩ := aspectBits_eq (n := 9 + (layerIdBits v.layerId).length) haspect
  have hc := controlBits_eq
    (n := 9 + (layerIdBits v.layerId).length + (aspectBits v.aspect v.parSize).length) hcontrol
  unfold volHead
  simp only [Option.bind_eq_bind, Option.bind_some, hb, hn, ha, hm, hc, List.length_append,
    List.length_cons, List.length_nil, length_natBits]
  rw [Option.pure_def, Option.some_inj]
  omega

theorem Vol.length_headBits (v : Vol) : 18 ≤ v.headBits.length := by
  have h1 : 1 ≤ (layerIdBits v.layerId).length := by
    cases v.layerId <;> simp [layerIdBits]
  have h2 : 4 ≤ (aspectBits v.aspect v.parSize).length := by simp [aspectBits]
  have h3 : 1 ≤ (controlBits v.control).length := by
    match v.control with
    | none => simp [controlBits]
    | some (_, none) => simp [controlBits]
    | some (_, some _) => simp [controlBits]
  simp only [Vol.headBits, List.length_append, List.length_cons, length_natBits]
  omega

/-- What the reader has found out before the size. -/
def Vol.read (v : Vol) (picture : MpegHeader) : MpegHeader :=
  { picture with
    timeincResolution := v.resolution.toNat
    timeincBits := timeBits v.resolution.toNat
    timeincUnit := (v.fixedTimeinc.map BitVec.toNat).getD 0 }

/-- The header is read up to the size.  With a fixed time increment the reader then has added the
position behind the increment to the position before it. -/
theorem mp4HeaderProcessVol_eq {picture : MpegHeader} {buffer : List UInt8} {v : Vol}
    (h : BitsAt buffer 0 v.bits) :
    mp4HeaderProcessVol picture buffer = volSize (v.read picture) buffer
      (v.headBits.length + 18 + match v.fixedTimeinc with
        | none => 0
        | some _ => v.headBits.length + 18 + timeBits v.resolution.toNat) := by
  have hres := v.resolution.isLt
  unfold Vol.bits at h
  obtain ⟨hhead, h⟩ := bitsAt_append.1 h
  obtain ⟨hr, h⟩ := bitsAt_append.1 h
  rw [length_natBits, Nat.zero_add] at h
  rw [Nat.zero_add] at hr
  obtain ⟨hhigh, hlow⟩ := bitsAt_natBits_high hr
  have hval := high_or_low v.resolution.toNat 8
  rw [Nat.mod_eq_of_lt hres] at hval
  obtain ⟨-, h⟩ := bitsAt_cons.1 h
  obtain ⟨hfixed, h⟩ := bitsAt_cons.1 h
  obtain ⟨htime, -⟩ := bitsAt_append.1 h
  unfold mp4HeaderProcessVol
  simp only [Option.bind_eq_bind, Option.bind_some, volHead_eq hhead,
    mpGetbits_nat hhigh (by decide) (by decide), mpGetbits_nat hlow (by decide) (by decide), hval,
    timeincBitsOf_eq v.resolution_pos hres, Nat.add_assoc, Nat.reduceAdd, mpGetbits_bit hfixed]
  unfold Vol.timeincBits at htime
  unfold Vol.read
  cases hf : v.fixedTimeinc with
  | none => simp
  | some t =>
    rw [hf] at htime
    have ht := @readTimeinc_eq { picture with
      timeincResolution := v.resolution.toNat
      timeincBits := timeBits v.resolution.toNat
      timeincUnit := 0 } _ _ _ htime (timeBits_pos _) (timeBits_le hres)
    rw [Nat.mod_eq_of_lt t.isLt] at ht
    simp only [Nat.add_assoc, Nat.reduceAdd] at ht
    simp [ht]

/-- The last part reads a size that is where it looks. -/
theorem volSize_eq {picture : MpegHeader} {buffer : List UInt8} {n w h : Nat}
    (hw : BitsAt buffer (n + 1) (natBits 13 w)) (hh : BitsAt buffer (n + 15) (natBits 13 h)) :
    volSize picture buffer n = some { picture with
      displayPictureWidth := w % 2 ^ 13, displayPictureHeight := h % 2 ^ 13 } := by
  unfold volSize
  simp only [Option.bind_eq_bind, Option.bind_some, mpGetbits16_nat hw (by decide) (by decide),
    Nat.add_assoc, Nat.reduceAdd, mpGetbits16_nat hh (by decide) (by decide)]
  rfl

/-! ## Planes -/

/-- The loop stops behind the first zero. -/
theorem skipOnes_eq {k fuel : Nat} (h : BitsAt buffer n (List.replicate k true ++ [false]))
    (hfuel : k < fuel) : skipOnes buffer fuel n = some (n + k) := by
  induction k generalizing n fuel with
  | zero =>
    obtain ⟨fuel, rfl⟩ := Nat.exists_eq_add_of_lt hfuel
    simp [skipOnes, mpGetbits_bit h]
  | succ k ih =>
    obtain ⟨fuel, rfl⟩ : ∃ f, fuel = f + 1 := ⟨fuel - 1, by omega⟩
    rw [List.replicate_succ, List.cons_append] at h
    obtain ⟨hbit, hrest⟩ := bitsAt_cons.1 h
    have hstep := @ih _ fuel hrest (by omega)
    simp only [skipOnes, mpGetbits_bit hbit, Option.bind_eq_bind, Option.bind_some, hstep]
    simp [Nat.add_assoc, Nat.add_comm 1 k]

/-- Every plane is read as it is written. -/
theorem mp4HeaderProcessVop_eq {picture : MpegHeader} (hpos : 0 < picture.timeincBits)
    (h16 : picture.timeincBits ≤ 16) {vop : Vop picture.timeincBits}
    (h : BitsAt buffer 0 vop.bits) :
    mp4HeaderProcessVop picture buffer = some { picture with
      pictureType := vop.codingType.toNat, timeincUnit := vop.timeinc.toNat } := by
  unfold Vop.bits at h
  obtain ⟨htype, h⟩ := bitsAt_append.1 h
  rw [length_natBits, Nat.zero_add] at h
  have htype := mpGetbits_nat htype (by decide) (by decide)
  rw [Nat.mod_eq_of_lt vop.codingType.isLt] at htype
  obtain ⟨hones, hrest⟩ := bitsAt_append.1 h
  rw [List.length_replicate] at hrest
  obtain ⟨hzero, hrest⟩ := bitsAt_cons.1 hrest
  obtain ⟨hmarker, htime⟩ := bitsAt_cons.1 hrest
  have hloop : BitsAt buffer 2 (List.replicate vop.moduloTimeBase true ++ [false]) :=
    bitsAt_append.2 ⟨hones, by simpa using hzero⟩
  have hlen := hloop.length_le (by simp)
  rw [List.length_append, List.length_replicate, List.length_singleton] at hlen
  have hskip : skipOnes buffer (8 * buffer.length + 1) 2 = some (2 + vop.moduloTimeBase) :=
    skipOnes_eq hloop (by omega)
  have ht := @readTimeinc_eq { picture with pictureType := vop.codingType.toNat } _ _ _
    htime hpos h16
  rw [Nat.mod_eq_of_lt vop.timeinc.isLt] at ht
  unfold mp4HeaderProcessVop
  simp only [Option.bind_eq_bind, Option.bind_some, htype, hskip, mpGetbits_bit hmarker, ht]
  rfl

/-! ## Layers -/

theorem Vol.length_bits (v : Vol) (t : BitVec (timeBits v.resolution.toNat))
    (h : v.fixedTimeinc = some t) :
    v.bits.length = v.headBits.length + 18 + timeBits v.resolution.toNat + 28 := by
  simp only [Vol.bits, Vol.timeincBits, h, List.length_append, List.length_cons, length_natBits]
  omega

/-- With a fixed time increment the width is read from behind the header. -/
theorem width_of_fixed {v : Vol} {t : BitVec (timeBits v.resolution.toNat)}
    (ht : v.fixedTimeinc = some t) (b : Bool) (h : VolDecodes v) :
    v.width.toNat = bitsNat (List.replicate 13 b) := by
  have hlong := v.length_headBits
  have hlen := v.length_bits t ht
  obtain ⟨buffer, hbits, hbehind⟩ := exists_bitsAt_replicate v.bits b (2 * v.bits.length + 28)
  obtain ⟨picture', hread, hwidth, -⟩ := h ⟨0, 0, 0, 0, 0, 0, 0⟩ buffer hbits
  have hnat : List.replicate 13 b = natBits 13 (bitsNat (List.replicate 13 b)) := by
    have := natBits_bitsNat (List.replicate 13 b)
    rwa [List.length_replicate, eq_comm] at this
  have hlt := bitsNat_lt (List.replicate 13 b)
  rw [List.length_replicate] at hlt
  rw [mp4HeaderProcessVol_eq hbits, ht] at hread
  have hw := hbehind (v.headBits.length + 18 + (v.headBits.length + 18 +
    timeBits v.resolution.toNat) + 1) 13 (by omega) (by omega)
  have hh := hbehind (v.headBits.length + 18 + (v.headBits.length + 18 +
    timeBits v.resolution.toNat) + 15) 13 (by omega) (by omega)
  rw [hnat] at hw hh
  have hsize := @volSize_eq (v.read ⟨0, 0, 0, 0, 0, 0, 0⟩) _ _ _ _ hw hh
  rw [hsize, Option.some_inj] at hread
  rw [← hwidth, ← hread]
  exact Nat.mod_eq_of_lt hlt

theorem VolDecodes.fixed_none {v : Vol} (h : VolDecodes v) : v.fixedTimeinc = none := by
  cases ht : v.fixedTimeinc with
  | none => rfl
  | some t =>
    have h0 := width_of_fixed ht false h
    have h1 := width_of_fixed ht true h
    rw [h0] at h1
    exact absurd h1 (by decide)

/-- A video object layer is read as it is written, with every plane behind it, exactly if it has no
fixed time increment. -/
theorem volDecodes_iff (v : Vol) : VolDecodes v ↔ v.fixedTimeinc = none := by
  constructor
  · exact VolDecodes.fixed_none
  · intro hnone picture buffer hbits
    have hread := @mp4HeaderProcessVol_eq picture _ _ hbits
    rw [hnone] at hread
    unfold Vol.bits Vol.timeincBits at hbits
    rw [hnone] at hbits
    obtain ⟨-, h⟩ := bitsAt_append.1 hbits
    obtain ⟨-, h⟩ := bitsAt_append.1 h
    rw [length_natBits, Nat.zero_add] at h
    obtain ⟨-, h⟩ := bitsAt_cons.1 h
    obtain ⟨-, h⟩ := bitsAt_cons.1 h
    rw [List.nil_append] at h
    obtain ⟨hw, hh⟩ := bitsAt_append.1 h
    rw [List.length_cons, length_natBits] at hh
    have hsize := @volSize_eq (v.read picture) _ _ _ _ (bitsAt_cons.1 hw).2 (bitsAt_cons.1 hh).2
    rw [Nat.mod_eq_of_lt v.width.isLt, Nat.mod_eq_of_lt v.height.isLt] at hsize
    have hpicture : mp4HeaderProcessVol picture buffer = _ := hread.trans hsize
    refine ⟨_, hpicture, rfl, rfl, rfl, fun t ht => absurd (hnone.symm.trans ht) (by simp), ?_⟩
    intro vop buffer' hvop
    exact ⟨_, mp4HeaderProcessVop_eq (timeBits_pos _) (timeBits_le v.resolution.isLt) hvop,
      rfl, rfl⟩

/-- A layer of 25 planes a second that is not read as it is written. -/
theorem not_volDecodes_25 :
    ¬VolDecodes ⟨false, 1, none, 1, 0, none, 25, by decide, some 1, 352, 288⟩ := by
  intro h
  have := h.fixed_none
  cases this

end MPlayer.MpegHdr
