import MPlayer.MpegHdr.Vol
import Mathlib.Data.List.Forall2

/-!
# H.264 sequence parameter sets

`h264_parse_sps` takes out the emulation prevention bytes, fills up with ones, and moves a bit
position over the fields, most of them exp-Golomb codes.  It comes to the size of the picture if it
sees the profile and the scaling lists as the standard does (`Sps.Aligned`), and then has it right
exactly if both codes are read right (`sps_decodes_iff`): `read_golomb` puts together codes with
more than eight bits behind the marker without moving the first of them.

A read outside the buffer is `none`.  The frame rate, a float, is left out.
-/

namespace MPlayer.MpegHdr

open Lib

/-! ## Codes -/

/-- The first loop of `read_golomb`, where `len` is 31 less the first argument: the zeros it counts,
and the position behind. -/
def golombZeros (buf : List UInt8) : Nat → Nat → Option (Nat × Nat)
  | 0, n => do
    let _ ← mpGetbits buf n 1
    return (0, n + 1)
  | k + 1, n => do
    if (← mpGetbits buf n 1) = 0 then
      let (len, n) ← golombZeros buf k (n + 1)
      return (len + 1, n)
    else
      return (0, n + 1)

/-- The second loop of `read_golomb`, where `rest` is `x - n` there: `v`.  A turn reads a bit at
least, and no `v` needs more than 32 bits. -/
def golombChunks (buf : List UInt8) : Nat → Nat → Nat → Nat → Option Nat
  | 0, _, _, v => some v
  | fuel + 1, rest, n, v => do
    if rest = 0 then return v
    let m := min rest 8
    let v := v ||| (← mpGetbits buf n m)
    let v := if rest - m > 8 then v <<< 8 else v
    golombChunks buf fuel (rest - m) (n + m) v

/-- `read_golomb`: the value, and the position behind the code. -/
def readGolomb (buf : List UInt8) (n : Nat) : Option (Nat × Nat) := do
  let (len, n) ← golombZeros buf 31 n
  let v ← golombChunks buf len len n 0
  return (2 ^ len - 1 + v, n + len)

/-- The value `read_golomb_s` makes of that of `read_golomb`. -/
def golombSigned (v : Nat) : Int :=
  if v % 2 = 1 then ((v + 1) >>> 1 : Nat) else -((v >>> 1 : Nat) : Int)

/-- A number of calls of `read_golomb` whose values are not used. -/
def skipGolombs (buf : List UInt8) : Nat → Nat → Option Nat
  | 0, n => some n
  | k + 1, n => do
    let (_, n) ← readGolomb buf n
    skipGolombs buf k n

/-! ## The parser -/

/-- The loop over one scaling list, with `k` and `v` there. -/
def scalingList (buf : List UInt8) : Nat → Nat → Nat → Option Nat
  | 0, _, n => some n
  | k + 1, v, n => do
    if v = 0 then return n
    let (g, n) ← readGolomb buf n
    scalingList buf k ((v + golombSigned g) % 256).toNat n

/-- The loop over the scaling lists with these lengths. -/
def scalingLists (buf : List UInt8) : List Nat → Nat → Option Nat
  | [], n => some n
  | k :: ks, n => do
    if (← mpGetbits buf n 1) ≠ 0 then
      let n ← scalingList buf k 8 (n + 1)
      scalingLists buf ks n
    else
      scalingLists buf ks (n + 1)

/-- The part of `h264_parse_sps` for high profiles. -/
def parseHigh (buf : List UInt8) (n : Nat) : Option Nat := do
  let (chroma, n) ← readGolomb buf n
  let n := if chroma = 3 then n + 1 else n
  let n ← skipGolombs buf 2 n
  let n := n + 1
  let scaling ← mpGetbits buf n 1
  let n := n + 1
  if scaling ≠ 0 then
    scalingLists buf [16, 16, 16, 16, 16, 16, 64, 64] n
  else
    return n

/-- The part of `h264_parse_sps` for the picture order count. -/
def parsePoc (buf : List UInt8) (n : Nat) : Option Nat := do
  let (v, n) ← readGolomb buf n
  if v = 0 then
    skipGolombs buf 1 n
  else if v = 1 then
    let _ ← mpGetbits buf n 1
    let n ← skipGolombs buf 2 (n + 1)
    let (cycle, n) ← readGolomb buf n
    skipGolombs buf cycle n
  else
    return n

/-- Four bytes at a bit position. -/
def getbits32 (buf : List UInt8) (n : Nat) : Option Nat := do
  let a ← mpGetbits buf n 8
  let b ← mpGetbits buf (n + 8) 8
  let c ← mpGetbits buf (n + 16) 8
  let d ← mpGetbits buf (n + 24) 8
  return a <<< 24 ||| b <<< 16 ||| c <<< 8 ||| d

/-- `h264_parse_vui` up to the aspect ratio. -/
def vuiAspect (picture : MpegHeader) (buf : List UInt8) (n : Nat) : Option (MpegHeader × Nat) := do
  if (← mpGetbits buf n 1) ≠ 0 then
    let idc ← mpGetbits buf (n + 1) 8
    return ({ picture with aspectRatioInformation := idc }, n + 9 + if idc = 255 then 32 else 0)
  else
    return (picture, n + 1)

/-- The part of `h264_parse_vui` for the video signal type. -/
def vuiColor (buf : List UInt8) (n : Nat) : Option Nat := do
  if (← mpGetbits buf n 1) ≠ 0 then
    let n := n + 1 + 4
    let description ← mpGetbits buf n 1
    let n := n + 1
    return if description ≠ 0 then n + 24 else n
  else
    return n + 1

/-- The part of `h264_parse_vui` between the aspect ratio and the timing. -/
def vuiSkip (buf : List UInt8) (n : Nat) : Option Nat := do
  let overscan ← mpGetbits buf n 1
  let n := n + 1
  let n := if overscan ≠ 0 then n + 1 else n
  let n ← vuiColor buf n
  let chroma ← mpGetbits buf n 1
  let n := n + 1
  skipGolombs buf (if chroma ≠ 0 then 2 else 0) n

/-- The part of `h264_parse_vui` for the timing. -/
def vuiTiming (picture : MpegHeader) (buf : List UInt8) (n : Nat) : Option (MpegHeader × Nat) := do
  if (← mpGetbits buf n 1) ≠ 0 then
    let n := n + 1
    let unit ← getbits32 buf n
    let n := n + 32
    let resolution ← getbits32 buf n
    let n := n + 32
    let _ ← mpGetbits buf n 1
    return ({ picture with timeincUnit := unit, timeincResolution := resolution }, n)
  else
    return (picture, n + 1)

/-- `h264_parse_vui`. -/
def h264ParseVui (picture : MpegHeader) (buf : List UInt8) (n : Nat) :
    Option (MpegHeader × Nat) := do
  let (picture, n) ← vuiAspect picture buf n
  let n ← vuiSkip buf n
  vuiTiming picture buf n

/-- The last part of `h264_parse_sps`, from cropping on. -/
def parseCropVui (picture : MpegHeader) (buf : List UInt8) (n : Nat) :
    Option (MpegHeader × Nat) := do
  let crop ← mpGetbits buf n 1
  let n ← skipGolombs buf (if crop ≠ 0 then 4 else 0) (n + 1)
  let vui ← mpGetbits buf n 1
  let n := n + 1
  if vui ≠ 0 then h264ParseVui picture buf n else return (picture, n)

/-- The part of `h264_parse_sps` from the reference frames on.  The size is an `unsigned int`
stored in an `int`. -/
def parseSize (picture : MpegHeader) (buf : List UInt8) (n : Nat) :
    Option (MpegHeader × Nat) := do
  let (_, n) ← readGolomb buf n
  let _ ← mpGetbits buf n 1
  let n := n + 1
  let (width, n) ← readGolomb buf n
  let (mbh, n) ← readGolomb buf n
  let frameMbsOnly ← mpGetbits buf n 1
  let n := n + 1
  let picture := { picture with
    displayPictureWidth := 16 * (width + 1) % 2 ^ 32
    displayPictureHeight := 16 * (2 - frameMbsOnly) * (mbh + 1) % 2 ^ 32 }
  let n ← if frameMbsOnly = 0 then do
      let _ ← mpGetbits buf n 1
      pure (n + 1)
    else pure n
  let _ ← mpGetbits buf n 1
  parseCropVui picture buf (n + 1)

/-- The part of `h264_parse_sps` that sees whether the profile is a high one. -/
def parseProfile (buf : List UInt8) (n : Nat) : Option Nat := do
  let profile ← buf[0]?
  if profile.toNat ≥ 100 then parseHigh buf n else return n

/-- `h264_parse_sps` up to the picture order count. -/
def spsHead (buf : List UInt8) : Option Nat := do
  let (_, n) ← readGolomb buf 24
  let n ← parseProfile buf n
  let (_, n) ← readGolomb buf n
  return n

/-- `h264_parse_sps` on the padded buffer. -/
def parseSps (picture : MpegHeader) (buf : List UInt8) : Option (MpegHeader × Nat) := do
  let picture := { picture with timeincUnit := 0, timeincResolution := 0 }
  let n ← spsHead buf
  let n ← parsePoc buf n
  parseSize picture buf n

/-- `mp_unescape03`: what it leaves in `dest`. -/
def mpUnescape03 : List UInt8 → List UInt8
  | 0 :: 0 :: 3 :: bs => 0 :: 0 :: mpUnescape03 bs
  | b :: bs => b :: mpUnescape03 bs
  | [] => []

/-- The buffer `h264_parse_sps` allocates for an input, once it is filled. -/
def spsBuffer (inbuf : List UInt8) : List UInt8 :=
  let inbuf := inbuf.take (100 * 1024 * 1024)
  let plain := mpUnescape03 inbuf
  plain ++ List.replicate (inbuf.length + 4096 - plain.length) 0xff

/-- `h264_parse_sps`, with the position it returns. -/
def h264ParseSps (picture : MpegHeader) (inbuf : List UInt8) : Option (MpegHeader × Nat) :=
  parseSps picture (spsBuffer inbuf)

/-! ## Parameter sets -/

/-- A value with an exp-Golomb code of at most 63 bits. -/
abbrev Ue := { v : Nat // v + 1 < 2 ^ 32 }

/-- An offset of a picture order count. -/
abbrev Offset := { v : Int // -2 ^ 31 < v ∧ v < 2 ^ 31 }

/-- The exp-Golomb code of a value. -/
def ueBits (v : Nat) : List Bool :=
  List.replicate (Nat.log2 (v + 1)) false ++ natBits (Nat.log2 (v + 1) + 1) (v + 1)

/-- What the signed code of a value is the code of. -/
def seValue (v : Int) : Nat := if 0 < v then 2 * v.toNat - 1 else 2 * (-v).toNat

/-- The profiles with the fields for high profiles. -/
def highProfiles : List Nat := [100, 110, 122, 244, 44, 83, 86, 118, 128, 138, 139, 134, 135]

/-- Values of `delta_scale` for a list of this length: there is one as long as the scale before,
the second argument, is not zero. -/
def DeltasFit : Nat → Nat → List Int → Prop
  | 0, _, ds => ds = []
  | _ + 1, 0, ds => ds = []
  | _ + 1, _ + 1, [] => False
  | k + 1, v + 1, d :: ds =>
    -128 ≤ d ∧ d < 128 ∧ DeltasFit k (((v + 1 : Nat) + d) % 256).toNat ds

/-- Scaling lists of these lengths, some of them absent. -/
def ListsFit (lengths : List Nat) (lists : List (Option (List Int))) : Prop :=
  List.Forall₂ (fun k ds => ∀ d ∈ ds, DeltasFit k 8 d) lengths lists

/-- The fields for high profiles. -/
structure HighFields where
  chromaFormat : Fin 4
  separatePlane : Bool
  lumaDepth : Ue
  chromaDepth : Ue
  bypass : Bool
  /-- There are twelve lists with the last chroma format. -/
  scaling : Option (List (Option (List Int)))
  scaling_fit : ∀ lists ∈ scaling, ListsFit
    (List.replicate 6 16 ++ List.replicate (if chromaFormat = 3 then 6 else 2) 64) lists

/-- The fields for the picture order count. -/
inductive PocFields where
  | type0 (lsb : Ue)
  | type1 (zero : Bool) (nonRef topToBottom : Offset) (cycle : List Offset)
      (cycle_le : cycle.length ≤ 255)
  | type2

/-- The video usability information up to the timing. -/
structure VuiFields where
  aspect : Option (BitVec 8)
  /-- The size of a sample, there with the extended aspect ratio. -/
  sar : BitVec 32
  overscan : Option Bool
  /-- Video format and range, and the description of the colours. -/
  videoSignal : Option (BitVec 4 × Option (BitVec 24))
  chromaLoc : Option (Ue × Ue)
  /-- `num_units_in_tick`, `time_scale`, and whether the frame rate is fixed. -/
  timing : Option (BitVec 32 × BitVec 32 × Bool)

/-- A sequence parameter set, up to where the parser stops. -/
structure Sps where
  profile : BitVec 8
  constraints : BitVec 8
  level : BitVec 8
  id : Ue
  high : HighFields
  maxFrameNum : Ue
  poc : PocFields
  refFrames : Ue
  gaps : Bool
  widthInMbs : Nat
  width_pos : 0 < widthInMbs ∧ widthInMbs < 2 ^ 16
  heightInMapUnits : Nat
  height_pos : 0 < heightInMapUnits ∧ heightInMapUnits < 2 ^ 16
  frameMbsOnly : Bool
  mbAdaptive : Bool
  direct8x8 : Bool
  crop : Option (Ue × Ue × Ue × Ue)
  vui : Option VuiFields

/-- A scaling list behind its presence bit. -/
def listBits : Option (List Int) → List Bool
  | none => [false]
  | some ds => true :: ds.flatMap fun d => ueBits (seValue d)

/-- The fields of the high profiles, as bits. -/
def HighFields.bits (h : HighFields) : List Bool :=
  ueBits h.chromaFormat ++ ((if h.chromaFormat = 3 then [h.separatePlane] else []) ++
    (ueBits h.lumaDepth ++ (ueBits h.chromaDepth ++ (h.bypass :: match h.scaling with
      | none => [false]
      | some lists => true :: lists.flatMap listBits))))

/-- The picture order count, as bits. -/
def PocFields.bits : PocFields → List Bool
  | .type0 lsb => ueBits 0 ++ ueBits lsb
  | .type1 zero nonRef topToBottom cycle _ =>
    ueBits 1 ++ (zero :: (ueBits (seValue nonRef) ++ (ueBits (seValue topToBottom) ++
      (ueBits cycle.length ++ cycle.flatMap fun v : Offset => ueBits (seValue v.1)))))
  | .type2 => ueBits 2

/-- The aspect ratio behind its presence bit. -/
def aspectIdcBits (aspect : Option (BitVec 8)) (sar : BitVec 32) : List Bool :=
  match aspect with
  | none => [false]
  | some idc => true :: (natBits 8 idc.toNat ++ if idc = 255 then natBits 32 sar.toNat else [])

/-- The overscan flag behind its presence bit. -/
def overscanBits : Option Bool → List Bool
  | none => [false]
  | some b => [true, b]

/-- The video signal type behind its presence bit. -/
def signalBits : Option (BitVec 4 × Option (BitVec 24)) → List Bool
  | none => [false]
  | some (format, none) => true :: (natBits 4 format.toNat ++ [false])
  | some (format, some colors) =>
    true :: (natBits 4 format.toNat ++ (true :: natBits 24 colors.toNat))

/-- The place of the chroma samples behind its presence bit. -/
def chromaLocBits : Option (Ue × Ue) → List Bool
  | none => [false]
  | some (top, bottom) => true :: (ueBits top ++ ueBits bottom)

/-- The timing behind its presence bit. -/
def timingBits : Option (BitVec 32 × BitVec 32 × Bool) → List Bool
  | none => [false]
  | some (unit, scale, fixed) =>
    true :: (natBits 32 unit.toNat ++ (natBits 32 scale.toNat ++ [fixed]))

/-- The usability information, as bits. -/
def VuiFields.bits (v : VuiFields) : List Bool :=
  aspectIdcBits v.aspect v.sar ++ ((overscanBits v.overscan ++ (signalBits v.videoSignal ++
    chromaLocBits v.chromaLoc)) ++ timingBits v.timing)

/-- The cropping behind its presence bit. -/
def cropBits : Option (Ue × Ue × Ue × Ue) → List Bool
  | none => [false]
  | some (left, right, top, bottom) =>
    true :: (ueBits left ++ (ueBits right ++ (ueBits top ++ ueBits bottom)))

/-- The usability information behind its presence bit. -/
def vuiBits : Option VuiFields → List Bool
  | none => [false]
  | some v => true :: v.bits

/-- The part from the reference frames on. -/
def Sps.sizeBits (s : Sps) : List Bool :=
  ueBits s.refFrames ++ (s.gaps :: (ueBits (s.widthInMbs - 1) ++
    (ueBits (s.heightInMapUnits - 1) ++ (s.frameMbsOnly ::
      ((if s.frameMbsOnly then [] else [s.mbAdaptive]) ++ (s.direct8x8 ::
        (cropBits s.crop ++ vuiBits s.vui)))))))

/-- The whole parameter set, as bits. -/
def Sps.bits (s : Sps) : List Bool :=
  natBits 8 s.profile.toNat ++ (natBits 8 s.constraints.toNat ++ (natBits 8 s.level.toNat ++
    (ueBits s.id ++ ((if s.profile.toNat ∈ highProfiles then s.high.bits else []) ++
      (ueBits s.maxFrameNum ++ (s.poc.bits ++ s.sizeBits))))))

/-- The input with emulation prevention bytes, after this many zero bytes. -/
def escape03 : Nat → List UInt8 → List UInt8
  | _, [] => []
  | z, b :: bs =>
    if z = 2 ∧ b ≤ 3 then 3 :: b :: escape03 (if b = 0 then 1 else 0) bs
    else b :: escape03 (if b = 0 then z + 1 else 0) bs

/-- What the parser should find. -/
structure Sps.Found (s : Sps) (picture : MpegHeader) : Prop where
  width : picture.displayPictureWidth = 16 * s.widthInMbs
  height : picture.displayPictureHeight = 16 * (2 - s.frameMbsOnly.toNat) * s.heightInMapUnits
  aspect : ∀ vui idc, s.vui = some vui → vui.aspect = some idc →
    picture.aspectRatioInformation = idc.toNat
  timing : ∀ vui unit scale fixed, s.vui = some vui → vui.timing = some (unit, scale, fixed) →
    picture.timeincUnit = unit.toNat ∧ picture.timeincResolution = scale.toNat

/-- Every input that is a parameter set, whatever comes behind the part that is parsed, is read as
it is written. -/
def SpsDecodes (s : Sps) : Prop :=
  ∀ (picture : MpegHeader) (rbsp : List UInt8), BitsAt rbsp 0 s.bits →
    (escape03 0 rbsp).length ≤ 100 * 1024 * 1024 →
    ∃ picture' n, h264ParseSps picture (escape03 0 rbsp) = some (picture', n) ∧ s.Found picture'

/-! ## Reading codes -/

variable {buf : List UInt8} {z k n v m : Nat}

theorem golombZeros_eq (h : BitsAt buf n (List.replicate z false ++ [true])) (hk : z ≤ k) :
    golombZeros buf k n = some (z, n + z + 1) := by
  induction z generalizing k n with
  | zero =>
    have hbit := mpGetbits_bit h
    cases k <;> simp [golombZeros, hbit]
  | succ z ih =>
    obtain ⟨k, rfl⟩ : ∃ j, k = j + 1 := ⟨k - 1, by omega⟩
    rw [List.replicate_succ, List.cons_append] at h
    obtain ⟨hbit, hrest⟩ := bitsAt_cons.1 h
    have hz := ih hrest (k := k) (by omega)
    simp only [golombZeros, mpGetbits_bit hbit, Option.bind_eq_bind, Option.bind_some, hz]
    simp [Nat.add_assoc, Nat.add_comm 1 z]

/-- The second loop reads on while there are bits. -/
theorem golombChunks_some {buf : List UInt8} {fuel n : Nat} {l : List Bool} (v : Nat)
    (h : BitsAt buf n l) : ∃ v', golombChunks buf fuel l.length n v = some v' := by
  induction fuel generalizing n l v with
  | zero => exact ⟨v, rfl⟩
  | succ fuel ih =>
    unfold golombChunks
    by_cases hl : l.length = 0
    · exact ⟨v, by simp [hl]⟩
    · have hsplit := List.take_append_drop 8 l
      rw [← hsplit] at h
      obtain ⟨hhead, htail⟩ := bitsAt_append.1 h
      have hm : (l.take 8).length = min l.length 8 := by rw [List.length_take, Nat.min_comm]
      have hread := mpGetbits_eq hhead (List.ne_nil_of_length_pos (by omega)) (by omega)
      rw [hm] at hread htail
      have hrest : l.length - min l.length 8 = (l.drop 8).length := by
        rw [List.length_drop]
        omega
      simp only [hl, if_false, hread, Option.bind_eq_bind, Option.bind_some, hrest]
      exact ih _ htail

/-- What the second loop makes of up to sixteen bits. -/
def chunkValue (len b : Nat) : Nat :=
  if len ≤ 8 then b else b >>> (len - 8) ||| b % 2 ^ (len - 8)

theorem golombChunks_eq {len b : Nat} (h : BitsAt buf n (natBits len b)) (hb : b < 2 ^ len)
    (h16 : len ≤ 16) : golombChunks buf len len n 0 = some (chunkValue len b) := by
  unfold chunkValue
  match len with
  | 0 =>
    have : b = 0 := by omega
    simp [golombChunks, this]
  | len + 1 =>
    split
    · rename_i h8
      have hread := mpGetbits_nat h (by omega) h8
      rw [Nat.mod_eq_of_lt hb] at hread
      have hmin : min (len + 1) 8 = len + 1 := Nat.min_eq_left h8
      cases len <;> simp [golombChunks, hmin, hread]
    · rename_i h8
      obtain ⟨k, rfl⟩ : ∃ k, len = k + 8 := ⟨len - 8, by omega⟩
      have hsplit := natBits_add 8 (k + 1) b
      rw [show 8 + (k + 1) = k + 8 + 1 by omega] at hsplit
      rw [hsplit, bitsAt_append, length_natBits] at h
      have hhigh := mpGetbits_nat h.1 (by decide) (by decide)
      have hlow := mpGetbits_nat h.2 (by omega) (by omega)
      have hlt : b >>> (k + 1) < 2 ^ 8 := by
        rw [Nat.shiftRight_eq_div_pow, Nat.div_lt_iff_lt_mul (Nat.two_pow_pos _), ← Nat.pow_add,
          show 8 + (k + 1) = k + 8 + 1 by omega]
        exact hb
      rw [Nat.mod_eq_of_lt hlt] at hhigh
      have h2 : k + 8 + 1 - 8 = k + 1 := by omega
      have h3 : ¬k + 1 > 8 := by omega
      have h4 : min (k + 1) 8 = k + 1 := by omega
      simp [golombChunks, h2, h3, h4, hhigh, hlow]

theorem log2_succ_le (hv : v + 1 < 2 ^ 32) : Nat.log2 (v + 1) ≤ 31 := by
  have : Nat.log2 (v + 1) < 32 := (Nat.log2_lt (by omega)).2 hv
  omega

/-- The marker and the bits behind it. -/
theorem natBits_log2 (hm : m ≠ 0) :
    natBits (Nat.log2 m + 1) m = true :: natBits (Nat.log2 m) (m - 2 ^ Nat.log2 m) := by
  have hle := Nat.log2_self_le hm
  have hlt := Nat.lt_log2_self (n := m)
  have htop : m.testBit (Nat.log2 m) = true := by
    rw [Nat.testBit_eq_decide_div_mod_eq, decide_eq_true_eq,
      Nat.div_eq_of_lt_le (k := 1) (by omega) (by rw [Nat.pow_succ] at hlt; omega)]
  rw [natBits_succ, htop]
  congr 1
  refine natBits_congr fun i hi => ?_
  obtain ⟨r, hr⟩ := Nat.exists_eq_add_of_le hle
  have hr' : m - 2 ^ Nat.log2 m = r := by omega
  rw [hr']
  conv_lhs => rw [hr, Nat.testBit_two_pow_add_gt hi]

/-- What `read_golomb` makes of a code with up to sixteen bits behind the marker. -/
def golombRead (v : Nat) : Nat :=
  2 ^ Nat.log2 (v + 1) - 1 + chunkValue (Nat.log2 (v + 1)) (v + 1 - 2 ^ Nat.log2 (v + 1))

theorem sub_log2_lt (hm : m ≠ 0) : m - 2 ^ Nat.log2 m < 2 ^ Nat.log2 m := by
  have hlt := Nat.lt_log2_self (n := m)
  have := Nat.log2_self_le hm
  rw [Nat.pow_succ] at hlt
  omega

@[simp] theorem length_ueBits (v : Nat) :
    (ueBits v).length = 2 * Nat.log2 (v + 1) + 1 := by
  rw [ueBits, List.length_append, List.length_replicate, length_natBits]
  omega

/-- Every code is read to its end. -/
theorem readGolomb_some (h : BitsAt buf n (ueBits v)) (hv : v + 1 < 2 ^ 32) :
    ∃ g, readGolomb buf n = some (g, n + (ueBits v).length) ∧
      (Nat.log2 (v + 1) ≤ 16 → g = golombRead v) := by
  have hlen := length_ueBits v
  have hz := log2_succ_le hv
  have hb := sub_log2_lt (m := v + 1) (by omega)
  rw [ueBits, natBits_log2 (by omega)] at h
  obtain ⟨hzeros, hrest⟩ := bitsAt_append.1 h
  obtain ⟨hone, hcode⟩ := bitsAt_cons.1 hrest
  rw [List.length_replicate] at hone hcode
  have hzeros : BitsAt buf n (List.replicate (Nat.log2 (v + 1)) false ++ [true]) :=
    bitsAt_append.2 ⟨hzeros, by simpa using hone⟩
  obtain ⟨r, hr⟩ := @golombChunks_some _ (Nat.log2 (v + 1)) _ _ 0 hcode
  rw [length_natBits] at hr
  refine ⟨2 ^ Nat.log2 (v + 1) - 1 + r, ?_, fun h16 => ?_⟩
  · rw [hlen]
    simp only [readGolomb, golombZeros_eq hzeros hz, Option.bind_eq_bind, Option.bind_some, hr]
    rw [Option.pure_def, Option.some_inj, Prod.mk.injEq]
    exact ⟨rfl, by omega⟩
  · rw [golombChunks_eq hcode hb h16, Option.some_inj] at hr
    rw [golombRead, hr]

/-- Small values are read right. -/
theorem golombRead_of_le (h : Nat.log2 (v + 1) ≤ 8) : golombRead v = v := by
  have := Nat.log2_self_le (n := v + 1) (by omega)
  have hpos := Nat.two_pow_pos (Nat.log2 (v + 1))
  rw [golombRead, chunkValue, if_pos h]
  omega

theorem readGolomb_small (h : BitsAt buf n (ueBits v)) (hv : v + 1 < 2 ^ 9) :
    readGolomb buf n = some (v, n + (ueBits v).length) := by
  obtain ⟨g, hg, hval⟩ := readGolomb_some h (by omega)
  have hz : Nat.log2 (v + 1) < 9 := (Nat.log2_lt (by omega)).2 hv
  rw [hg, hval (by omega), golombRead_of_le (by omega)]

/-- The sizes, in macroblocks, whose code is read right: those of up to nine bits, and those whose
eight bits behind the first are zero. -/
def SizeReadable (m : Nat) : Prop :=
  Nat.log2 m ≤ 8 ∨ m - 2 ^ Nat.log2 m < 2 ^ (Nat.log2 m - 8)

/-- High bits that are not moved are in their place only if they are zero. -/
theorem shiftRight_or_mod_eq_iff {b : Nat} (hk : 0 < k) :
    b >>> k ||| b % 2 ^ k = b ↔ b < 2 ^ k := by
  have hmod : b % 2 ^ k < 2 ^ k := Nat.mod_lt b (Nat.two_pow_pos k)
  constructor
  · intro heq
    apply Classical.byContradiction
    intro hge
    have hne : b >>> k ≠ 0 := by
      rw [Nat.shiftRight_eq_div_pow]
      exact Nat.ne_of_gt (Nat.div_pos (by omega) (Nat.two_pow_pos k))
    -- the bit where the high part has its top
    have htop : b.testBit (k + Nat.log2 (b >>> k)) = true := by
      rw [← Nat.testBit_shiftRight]
      exact Nat.testBit_log2 hne
    have hhigh : (b >>> k).testBit (k + Nat.log2 (b >>> k)) = false :=
      Nat.testBit_lt_two_pow (Nat.lt_of_lt_of_le Nat.lt_log2_self
        (Nat.pow_le_pow_right (by decide) (by omega)))
    have hlow : (b % 2 ^ k).testBit (k + Nat.log2 (b >>> k)) = false :=
      Nat.testBit_lt_two_pow (Nat.lt_of_lt_of_le hmod
        (Nat.pow_le_pow_right (by decide) (Nat.le_add_right _ _)))
    have hsame := congrArg (Nat.testBit · (k + Nat.log2 (b >>> k))) heq
    simp [Nat.testBit_or, hhigh, hlow, htop] at hsame
  · intro hlt
    rw [Nat.shiftRight_eq_zero b k hlt, Nat.mod_eq_of_lt hlt, Nat.zero_or]

theorem golombRead_eq_iff (hm : 0 < m) : golombRead (m - 1) + 1 = m ↔ SizeReadable m := by
  have hle := Nat.log2_self_le (n := m) (by omega)
  have hpos := Nat.two_pow_pos (Nat.log2 m)
  have hval : golombRead (m - 1) + 1 = m ↔
      chunkValue (Nat.log2 m) (m - 2 ^ Nat.log2 m) = m - 2 ^ Nat.log2 m := by
    rw [golombRead, Nat.sub_add_cancel hm]
    omega
  rw [hval, SizeReadable, chunkValue]
  split
  · rename_i h8
    exact iff_of_true rfl (.inl h8)
  · rename_i h8
    rw [shiftRight_or_mod_eq_iff (by omega), or_iff_right h8]

/-! ## Fields that are skipped -/

theorem skipGolombs_eq {vs : List Nat} (h : BitsAt buf n (vs.flatMap ueBits))
    (hvs : ∀ v ∈ vs, v + 1 < 2 ^ 32) :
    skipGolombs buf vs.length n = some (n + (vs.flatMap ueBits).length) := by
  induction vs generalizing n with
  | nil => rfl
  | cons v vs ih =>
    obtain ⟨hhead, htail⟩ := bitsAt_append.1 h
    obtain ⟨g, hg, -⟩ := readGolomb_some hhead (hvs v (by simp))
    have hrest := ih htail fun v hv => hvs v (List.mem_cons_of_mem _ hv)
    rw [List.length_cons, skipGolombs]
    simp only [hg, Option.bind_eq_bind, Option.bind_some, hrest, List.flatMap_cons,
      List.length_append, Nat.add_assoc]

theorem skipGolombs_ue {buf : List UInt8} {vs : List Ue} {n : Nat}
    (h : BitsAt buf n (vs.flatMap fun v : Ue => ueBits v.1)) :
    skipGolombs buf vs.length n = some (n + (vs.flatMap fun v : Ue => ueBits v.1).length) := by
  have hflat : vs.flatMap (fun v : Ue => ueBits v.1) = (vs.map Subtype.val).flatMap ueBits := by
    rw [List.flatMap_map]
  rw [hflat] at h ⊢
  have hskip := skipGolombs_eq h fun v hv => by
    obtain ⟨u, -, rfl⟩ := List.mem_map.1 hv
    exact u.2
  rwa [List.length_map] at hskip

theorem skipGolombs_two {a b : Ue} (h : BitsAt buf n (ueBits a ++ ueBits b)) :
    skipGolombs buf 2 n = some (n + (ueBits a ++ ueBits b).length) := by
  have := @skipGolombs_ue _ [a, b] _ (by simpa using h)
  simpa using this

theorem golombSigned_seValue (d : Int) : golombSigned (seValue d) = d := by
  unfold golombSigned seValue
  simp only [Nat.shiftRight_one]
  split <;> split <;> omega

/-- A scaling list is passed if its values fit the scale before them. -/
theorem scalingList_eq {ds : List Int} (hfit : DeltasFit k v ds)
    (h : BitsAt buf n (ds.flatMap fun d => ueBits (seValue d))) :
    scalingList buf k v n = some (n + (ds.flatMap fun d => ueBits (seValue d)).length) := by
  induction k generalizing v n ds with
  | zero =>
    cases hfit
    rfl
  | succ k ih =>
    match v, ds with
    | 0, ds =>
      cases hfit
      rfl
    | v + 1, [] => cases hfit
    | v + 1, d :: ds =>
      obtain ⟨hlow, hhigh, hrest⟩ := hfit
      obtain ⟨hhead, htail⟩ := bitsAt_append.1 h
      have hsmall : seValue d + 1 < 2 ^ 9 := by
        unfold seValue
        split <;> omega
      have hg := readGolomb_small hhead hsmall
      have hmore := ih hrest htail
      rw [scalingList]
      simp only [Nat.add_one_ne_zero, if_false, hg, Option.bind_eq_bind, Option.bind_some,
        golombSigned_seValue, hmore, List.flatMap_cons, List.length_append, Nat.add_assoc]

theorem scalingLists_eq {ks : List Nat} {lists : List (Option (List Int))}
    (hfit : ListsFit ks lists) (h : BitsAt buf n (lists.flatMap listBits)) :
    scalingLists buf ks n = some (n + (lists.flatMap listBits).length) := by
  induction hfit generalizing n with
  | nil => rfl
  | @cons k ds ks lists hds _ ih =>
    obtain ⟨hhead, htail⟩ := bitsAt_append.1 h
    have hrest := ih htail
    rw [scalingLists]
    cases ds with
    | none =>
      have hlen : (listBits none).length = 1 := rfl
      rw [hlen] at hrest
      simp only [mpGetbits_bit hhead, Option.bind_eq_bind, Option.bind_some, Bool.toNat_false,
        ne_eq, not_true_eq_false, if_false, List.flatMap_cons, List.length_append, hlen,
        Nat.add_assoc] at hrest ⊢
      exact hrest
    | some ds =>
      obtain ⟨hflag, hcodes⟩ := bitsAt_cons.1 hhead
      have hlist := scalingList_eq (hds ds rfl) hcodes
      have hlen : (listBits (some ds)).length =
          1 + (ds.flatMap fun d => ueBits (seValue d)).length := by
        rw [listBits, List.length_cons, Nat.add_comm]
      rw [hlen] at hrest
      simp only [mpGetbits_bit hflag, Option.bind_eq_bind, Option.bind_some, hlist,
        Bool.toNat_true, ne_eq, Nat.one_ne_zero, not_false_eq_true, if_true, List.flatMap_cons,
        List.length_append, hlen, Nat.add_assoc] at hrest ⊢
      exact hrest

/-- The fields for high profiles are passed, if there are eight scaling lists or none. -/
theorem parseHigh_eq {f : HighFields} (hlists : f.chromaFormat = 3 → f.scaling = none)
    (h : BitsAt buf n f.bits) : parseHigh buf n = some (n + f.bits.length) := by
  have hchroma : (f.chromaFormat : Nat) + 1 < 2 ^ 9 := by omega
  have hfits := f.scaling_fit
  unfold HighFields.bits at h ⊢
  obtain ⟨hformat, h⟩ := bitsAt_append.1 h
  obtain ⟨-, h⟩ := bitsAt_append.1 h
  have hplane : (if (f.chromaFormat : Nat) = 3 then n + (ueBits f.chromaFormat).length + 1
      else n + (ueBits f.chromaFormat).length) = n + (ueBits f.chromaFormat).length +
        (if f.chromaFormat = 3 then [f.separatePlane] else []).length := by
    have hiff : (f.chromaFormat : Nat) = 3 ↔ f.chromaFormat = 3 := by
      rw [Fin.ext_iff]
      rfl
    simp only [hiff]
    split <;> rfl
  rw [← List.append_assoc, bitsAt_append] at h
  obtain ⟨hdepths, h⟩ := h
  have hskip := skipGolombs_two hdepths
  obtain ⟨-, h⟩ := bitsAt_cons.1 h
  unfold parseHigh
  simp only [readGolomb_small hformat hchroma, Option.bind_eq_bind, Option.bind_some, hplane, hskip]
  cases hs : f.scaling with
  | none =>
    rw [hs] at h
    rw [mpGetbits_bit (b := false) h, Option.bind_some]
    simp [Nat.add_assoc]
  | some lists =>
    have hnot : f.chromaFormat ≠ 3 := by
      intro h3
      rw [hlists h3] at hs
      cases hs
    rw [hs] at h
    obtain ⟨hflag, hbits⟩ := bitsAt_cons.1 h
    have hfit := hfits lists hs
    rw [if_neg hnot] at hfit
    have hread := scalingLists_eq hfit hbits
    rw [mpGetbits_bit hflag, Option.bind_some, if_pos (by decide)]
    refine hread.trans ?_
    simp [Nat.add_assoc, Nat.add_comm, Nat.add_left_comm]

theorem seValue_lt (v : Offset) : seValue v.1 + 1 < 2 ^ 32 := by
  obtain ⟨v, hv⟩ := v
  simp only [seValue]
  split <;> omega

/-- The fields for the picture order count are passed. -/
theorem parsePoc_eq {f : PocFields} (h : BitsAt buf n f.bits) :
    parsePoc buf n = some (n + f.bits.length) := by
  unfold parsePoc
  match f with
  | .type0 lsb =>
    obtain ⟨htype, hlsb⟩ := bitsAt_append.1 h
    have hskip := @skipGolombs_ue _ [lsb] _ (by simpa using hlsb)
    simp only [readGolomb_small htype (by decide), Option.bind_eq_bind, Option.bind_some, if_true]
    simpa [PocFields.bits, Nat.add_assoc] using hskip
  | .type2 =>
    simp only [readGolomb_small h (by decide), Option.bind_eq_bind, Option.bind_some]
    rfl
  | .type1 zero nonRef topToBottom cycle hcycle =>
    unfold PocFields.bits at h
    obtain ⟨htype, h⟩ := bitsAt_append.1 h
    obtain ⟨hzero, h⟩ := bitsAt_cons.1 h
    rw [← List.append_assoc] at h
    obtain ⟨htwo, h⟩ := bitsAt_append.1 h
    have hskip := skipGolombs_two (a := ⟨_, seValue_lt nonRef⟩)
      (b := ⟨_, seValue_lt topToBottom⟩) htwo
    obtain ⟨hcount, hcodes⟩ := bitsAt_append.1 h
    have hflat : (cycle.flatMap fun v : Offset => ueBits (seValue v.1)) =
        (cycle.map fun v : Offset => seValue v.1).flatMap ueBits := by
      rw [List.flatMap_map]
    rw [hflat] at hcodes
    have hloop := skipGolombs_eq hcodes fun v hv => by
      obtain ⟨u, -, rfl⟩ := List.mem_map.1 hv
      exact seValue_lt u
    rw [List.length_map] at hloop
    rw [readGolomb_small htype (by decide)]
    simp only [Option.bind_eq_bind, Option.bind_some, Nat.one_ne_zero, if_false, if_true]
    rw [mpGetbits_bit hzero, Option.bind_some, hskip, Option.bind_some,
      readGolomb_small hcount (by omega)]
    simp only [Option.bind_some]
    rw [hloop, PocFields.bits, hflat]
    simp only [List.length_append, List.length_cons, Option.some_inj]
    omega

/-! ## Usability information -/

theorem getbits32_eq {v : BitVec 32} (h : BitsAt buf n (natBits 32 v.toNat)) :
    getbits32 buf n = some v.toNat := by
  have hv := v.isLt
  obtain ⟨h, hd⟩ := bitsAt_natBits_high (w := 24) h
  obtain ⟨h, hc⟩ := bitsAt_natBits_high (w := 16) h
  obtain ⟨ha, hb⟩ := bitsAt_natBits_high (w := 8) h
  have h16 := high_or_low (v.toNat >>> 8 >>> 8) 8
  have h24 := high_or_low (v.toNat >>> 8) 16
  have h32 := high_or_low v.toNat 24
  rw [Nat.mod_eq_of_lt hv] at h32
  unfold getbits32
  simp only [mpGetbits_nat ha (by decide) (by decide), mpGetbits_nat hb (by decide) (by decide),
    mpGetbits_nat hc (by decide) (by decide), mpGetbits_nat hd (by decide) (by decide),
    Option.bind_eq_bind, Option.bind_some, Option.pure_def, Option.some_inj]
  conv_rhs => rw [← h32, ← h24, ← h16]
  simp only [Nat.shiftLeft_or_distrib, ← Nat.shiftLeft_add]

theorem vuiAspect_eq {picture : MpegHeader} {buf : List UInt8} {n : Nat}
    {aspect : Option (BitVec 8)} {sar : BitVec 32} (h : BitsAt buf n (aspectIdcBits aspect sar)) :
    vuiAspect picture buf n = some
      ({ picture with aspectRatioInformation :=
          (aspect.map BitVec.toNat).getD picture.aspectRatioInformation },
        n + (aspectIdcBits aspect sar).length) := by
  unfold vuiAspect
  cases aspect with
  | none =>
    rw [mpGetbits_bit h]
    rfl
  | some idc =>
    obtain ⟨hflag, h⟩ := bitsAt_cons.1 h
    obtain ⟨hidc, -⟩ := bitsAt_append.1 h
    have hread := mpGetbits_nat hidc (by decide) (by decide)
    rw [Nat.mod_eq_of_lt idc.isLt] at hread
    have hiff : idc.toNat = 255 ↔ idc = 255 := by
      rw [← BitVec.toNat_inj]
      rfl
    rw [mpGetbits_bit hflag]
    simp only [hread, Option.bind_eq_bind, Option.bind_some, hiff, aspectIdcBits]
    by_cases h255 : idc = 255
    · simp [h255]
    · rw [if_pos (by decide), if_neg h255, if_neg h255]
      simp

theorem vuiColor_eq {signal : Option (BitVec 4 × Option (BitVec 24))}
    (h : BitsAt buf n (signalBits signal)) :
    vuiColor buf n = some (n + (signalBits signal).length) := by
  unfold vuiColor
  match signal with
  | none =>
    rw [mpGetbits_bit h]
    rfl
  | some (format, none) =>
    obtain ⟨hflag, h⟩ := bitsAt_cons.1 h
    have hnone := (bitsAt_append.1 h).2
    rw [length_natBits] at hnone
    rw [mpGetbits_bit hflag]
    simp [mpGetbits_bit hnone, signalBits]
  | some (format, some colors) =>
    obtain ⟨hflag, h⟩ := bitsAt_cons.1 h
    have hsome := (bitsAt_cons.1 (bitsAt_append.1 h).2).1
    rw [length_natBits] at hsome
    rw [mpGetbits_bit hflag]
    simp [mpGetbits_bit hsome, signalBits]

theorem overscanBits_eq {overscan : Option Bool} (h : BitsAt buf n (overscanBits overscan)) :
    ∃ b, mpGetbits buf n 1 = some b ∧
      (if b ≠ 0 then n + 1 + 1 else n + 1) = n + (overscanBits overscan).length := by
  cases overscan with
  | none => exact ⟨0, mpGetbits_bit h, rfl⟩
  | some b => exact ⟨1, mpGetbits_bit (bitsAt_cons.1 h).1, rfl⟩

theorem chromaLocBits_eq {loc : Option (Ue × Ue)} (h : BitsAt buf n (chromaLocBits loc)) :
    ∃ b, mpGetbits buf n 1 = some b ∧
      skipGolombs buf (if b ≠ 0 then 2 else 0) (n + 1) = some (n + (chromaLocBits loc).length) := by
  match loc with
  | none => exact ⟨0, mpGetbits_bit h, rfl⟩
  | some (top, bottom) =>
    obtain ⟨hflag, h⟩ := bitsAt_cons.1 h
    have hskip := skipGolombs_two h
    refine ⟨1, mpGetbits_bit hflag, hskip.trans ?_⟩
    rw [chromaLocBits, List.length_cons, Option.some_inj]
    omega

theorem vuiSkip_eq {overscan : Option Bool} {signal : Option (BitVec 4 × Option (BitVec 24))}
    {loc : Option (Ue × Ue)}
    (h : BitsAt buf n (overscanBits overscan ++ (signalBits signal ++ chromaLocBits loc))) :
    vuiSkip buf n =
      some (n + (overscanBits overscan ++ (signalBits signal ++ chromaLocBits loc)).length) := by
  obtain ⟨hover, h⟩ := bitsAt_append.1 h
  obtain ⟨hsignal, hloc⟩ := bitsAt_append.1 h
  obtain ⟨b, hb, hn⟩ := overscanBits_eq hover
  obtain ⟨c, hc, hskip⟩ := chromaLocBits_eq hloc
  unfold vuiSkip
  simp only [hb, hn, vuiColor_eq hsignal, hc, Option.bind_eq_bind, Option.bind_some]
  rw [hskip, List.length_append, List.length_append, Nat.add_assoc, Nat.add_assoc]

theorem vuiTiming_eq {picture : MpegHeader} {buf : List UInt8} {n : Nat}
    {timing : Option (BitVec 32 × BitVec 32 × Bool)} (h : BitsAt buf n (timingBits timing)) :
    ∃ m, vuiTiming picture buf n = some ({ picture with
      timeincUnit := (timing.map fun t => t.1.toNat).getD picture.timeincUnit
      timeincResolution := (timing.map fun t => t.2.1.toNat).getD picture.timeincResolution },
        m) := by
  unfold vuiTiming
  match timing with
  | none =>
    rw [mpGetbits_bit h]
    exact ⟨_, rfl⟩
  | some (unit, scale, fixed) =>
    obtain ⟨hflag, h⟩ := bitsAt_cons.1 h
    obtain ⟨hunit, h⟩ := bitsAt_append.1 h
    obtain ⟨hscale, hfixed⟩ := bitsAt_append.1 h
    rw [length_natBits] at hscale hfixed
    rw [length_natBits] at hfixed
    rw [mpGetbits_bit hflag]
    simp only [Option.bind_eq_bind, Option.bind_some, getbits32_eq hunit, getbits32_eq hscale,
      mpGetbits_bit hfixed]
    exact ⟨_, rfl⟩

/-! ## The whole set -/

theorem cropBits_eq {crop : Option (Ue × Ue × Ue × Ue)} (h : BitsAt buf n (cropBits crop)) :
    ∃ b, mpGetbits buf n 1 = some b ∧
      skipGolombs buf (if b ≠ 0 then 4 else 0) (n + 1) = some (n + (cropBits crop).length) := by
  match crop with
  | none => exact ⟨0, mpGetbits_bit h, rfl⟩
  | some (left, right, top, bottom) =>
    obtain ⟨hflag, h⟩ := bitsAt_cons.1 h
    have hskip := @skipGolombs_ue _ [left, right, top, bottom] _ (by simpa using h)
    refine ⟨1, mpGetbits_bit hflag, hskip.trans ?_⟩
    simp [cropBits]
    omega

/-- What the last part of the parser finds. -/
structure FoundVui (vui : Option VuiFields) (picture picture' : MpegHeader) : Prop where
  width : picture'.displayPictureWidth = picture.displayPictureWidth
  height : picture'.displayPictureHeight = picture.displayPictureHeight
  aspect : ∀ v idc, vui = some v → v.aspect = some idc → picture'.aspectRatioInformation = idc.toNat
  timing : ∀ v unit scale fixed, vui = some v → v.timing = some (unit, scale, fixed) →
    picture'.timeincUnit = unit.toNat ∧ picture'.timeincResolution = scale.toNat

theorem parseCropVui_eq {picture : MpegHeader} {crop : Option (Ue × Ue × Ue × Ue)}
    {vui : Option VuiFields} (h : BitsAt buf n (cropBits crop ++ vuiBits vui)) :
    ∃ picture' m, parseCropVui picture buf n = some (picture', m) ∧
      FoundVui vui picture picture' := by
  obtain ⟨hcrop, hvui⟩ := bitsAt_append.1 h
  obtain ⟨b, hb, hskip⟩ := cropBits_eq hcrop
  unfold parseCropVui
  simp only [hb, Option.bind_eq_bind, Option.bind_some, hskip]
  cases vui with
  | none =>
    rw [mpGetbits_bit hvui]
    exact ⟨picture, _, rfl, rfl, rfl, by simp, by simp⟩
  | some v =>
    obtain ⟨hflag, h⟩ := bitsAt_cons.1 hvui
    obtain ⟨haspect, h⟩ := bitsAt_append.1 h
    obtain ⟨hmiddle, htiming⟩ := bitsAt_append.1 h
    have ha := @vuiAspect_eq picture _ _ _ _ haspect
    obtain ⟨m, ht⟩ := @vuiTiming_eq { picture with
      aspectRatioInformation :=
        ((v.aspect.map BitVec.toNat).getD picture.aspectRatioInformation) } _ _ _ htiming
    rw [mpGetbits_bit hflag]
    refine ⟨_, m, Eq.trans ?_ ht, rfl, rfl, ?_, ?_⟩
    · rw [Option.bind_some, if_pos (by decide), h264ParseVui, ha]
      simp only [Option.bind_eq_bind, Option.bind_some, vuiSkip_eq hmiddle]
    · intro v' idc hv hidc
      cases hv
      simp [hidc]
    · intro v' unit scale fixed hv htime
      cases hv
      simp [htime]

theorem golombRead_lt (h : v + 1 < 2 ^ 16) : golombRead v + 1 < 2 ^ 17 := by
  have hz : Nat.log2 (v + 1) < 16 := (Nat.log2_lt (by omega)).2 h
  have hle : 2 ^ Nat.log2 (v + 1) ≤ 2 ^ 15 := Nat.pow_le_pow_right (by decide) (by omega)
  have hb := sub_log2_lt (m := v + 1) (by omega)
  have hchunk : chunkValue (Nat.log2 (v + 1)) (v + 1 - 2 ^ Nat.log2 (v + 1)) < 2 ^ 15 := by
    unfold chunkValue
    split
    · omega
    · refine Nat.or_lt_two_pow (Nat.lt_of_le_of_lt (Nat.shiftRight_le _ _) (by omega)) ?_
      exact Nat.lt_of_le_of_lt (Nat.mod_le _ _) (by omega)
  unfold golombRead
  omega

theorem readGolomb_size (h : BitsAt buf n (ueBits (m - 1))) (hm : 0 < m ∧ m < 2 ^ 16) :
    readGolomb buf n = some (golombRead (m - 1), n + (ueBits (m - 1)).length) := by
  have hz : Nat.log2 (m - 1 + 1) < 16 := (Nat.log2_lt (by omega)).2 (by omega)
  obtain ⟨g, hg, hval⟩ := readGolomb_some h (by omega)
  rw [hg, hval (by omega)]

/-- The size comes out as the codes are read, and all behind it is found. -/
theorem parseSize_eq {picture : MpegHeader} {buf : List UInt8} {n : Nat} {s : Sps}
    (h : BitsAt buf n s.sizeBits) :
    ∃ picture' picture'' m, parseSize picture buf n = some (picture'', m) ∧
      picture'.displayPictureWidth = 16 * (golombRead (s.widthInMbs - 1) + 1) ∧
      picture'.displayPictureHeight =
        16 * (2 - s.frameMbsOnly.toNat) * (golombRead (s.heightInMapUnits - 1) + 1) ∧
      FoundVui s.vui picture' picture'' := by
  unfold Sps.sizeBits at h
  obtain ⟨hrefs, h⟩ := bitsAt_append.1 h
  obtain ⟨hgaps, h⟩ := bitsAt_cons.1 h
  obtain ⟨hwidth, h⟩ := bitsAt_append.1 h
  obtain ⟨hheight, h⟩ := bitsAt_append.1 h
  obtain ⟨hframe, h⟩ := bitsAt_cons.1 h
  obtain ⟨g, hg, -⟩ := readGolomb_some hrefs s.refFrames.2
  have hw := golombRead_lt (v := s.widthInMbs - 1) (by have := s.width_pos; omega)
  have hh := golombRead_lt (v := s.heightInMapUnits - 1) (by have := s.height_pos; omega)
  have hwmod := Nat.mod_eq_of_lt (a := 16 * (golombRead (s.widthInMbs - 1) + 1)) (b := 2 ^ 32)
    (by omega)
  have hhmod : 16 * (2 - s.frameMbsOnly.toNat) * (golombRead (s.heightInMapUnits - 1) + 1) %
      2 ^ 32 = 16 * (2 - s.frameMbsOnly.toNat) * (golombRead (s.heightInMapUnits - 1) + 1) := by
    refine Nat.mod_eq_of_lt ?_
    cases s.frameMbsOnly
    · simp
      omega
    · simp
      omega
  unfold parseSize
  simp only [hg, mpGetbits_bit hgaps, readGolomb_size hwidth s.width_pos,
    readGolomb_size hheight s.height_pos, mpGetbits_bit hframe, Option.bind_eq_bind,
    Option.bind_some, hwmod, hhmod]
  refine ⟨{ picture with
    displayPictureWidth := 16 * (golombRead (s.widthInMbs - 1) + 1)
    displayPictureHeight :=
      16 * (2 - s.frameMbsOnly.toNat) * (golombRead (s.heightInMapUnits - 1) + 1) }, ?_⟩
  cases hf : s.frameMbsOnly with
  | true =>
    rw [hf, if_pos rfl, List.nil_append] at h
    obtain ⟨hdirect, h⟩ := bitsAt_cons.1 h
    obtain ⟨picture'', m, hread, hfound⟩ := parseCropVui_eq h
    refine ⟨picture'', m, ?_, rfl, rfl, hfound⟩
    rw [if_neg (by decide), Option.pure_def, Option.bind_some, mpGetbits_bit hdirect]
    exact hread
  | false =>
    rw [hf, if_neg (by decide), List.singleton_append] at h
    obtain ⟨hadaptive, h⟩ := bitsAt_cons.1 h
    obtain ⟨hdirect, h⟩ := bitsAt_cons.1 h
    obtain ⟨picture'', m, hread, hfound⟩ := parseCropVui_eq h
    refine ⟨picture'', m, ?_, rfl, rfl, hfound⟩
    rw [if_pos (by decide), mpGetbits_bit hadaptive, Option.bind_some, Option.pure_def,
      Option.bind_some, mpGetbits_bit hdirect]
    exact hread

/-- The parser sees the high profiles where the standard does, and as many scaling lists. -/
def Sps.Aligned (s : Sps) : Prop :=
  (s.profile.toNat ∈ highProfiles ↔ 100 ≤ s.profile.toNat) ∧
    (s.profile.toNat ∈ highProfiles → s.high.chromaFormat = 3 → s.high.scaling = none)

/-- The parser comes to the size. -/
theorem parseSps_eq {picture : MpegHeader} {buf : List UInt8} {s : Sps} (ha : s.Aligned)
    (h : BitsAt buf 0 s.bits) :
    ∃ n, BitsAt buf n s.sizeBits ∧ parseSps picture buf =
      parseSize { picture with timeincUnit := 0, timeincResolution := 0 } buf n := by
  unfold Sps.bits at h
  obtain ⟨hprofile, h⟩ := bitsAt_append.1 h
  obtain ⟨-, h⟩ := bitsAt_append.1 h
  obtain ⟨-, h⟩ := bitsAt_append.1 h
  obtain ⟨hid, h⟩ := bitsAt_append.1 h
  obtain ⟨hhigh, h⟩ := bitsAt_append.1 h
  obtain ⟨hframe, h⟩ := bitsAt_append.1 h
  obtain ⟨hpoc, hsize⟩ := bitsAt_append.1 h
  obtain ⟨b, hb, hval⟩ := hprofile.one_byte (List.ne_nil_of_length_pos (by simp)) (by simp)
  have hbyte : b.toNat = s.profile.toNat := by
    have hlt := s.profile.isLt
    rw [bitsNat_natBits hlt] at hval
    have := b.toNat_lt
    simpa [Nat.mod_eq_of_lt this] using hval.symm
  simp only [length_natBits, Nat.reduceAdd] at hid hhigh hframe hpoc hsize
  obtain ⟨g, hg, -⟩ := readGolomb_some hid s.id.2
  obtain ⟨g', hg', -⟩ := readGolomb_some hframe s.maxFrameNum.2
  refine ⟨_, hsize, ?_⟩
  have hhead : ∀ m, parseProfile buf (24 + (ueBits s.id).length) = some m → ∀ g m',
      readGolomb buf m = some (g, m') → spsHead buf = some m' := by
    intro m hm g m' hm'
    unfold spsHead
    simp only [hg, hm, hm', Option.bind_eq_bind, Option.bind_some, Option.pure_def]
  rw [Nat.zero_div] at hb
  have hprof : parseProfile buf (24 + (ueBits s.id).length) = some (24 + (ueBits s.id).length +
      (if s.profile.toNat ∈ highProfiles then s.high.bits else []).length) := by
    unfold parseProfile
    rw [hb, Option.bind_eq_bind, Option.bind_some, hbyte]
    by_cases hp : s.profile.toNat ∈ highProfiles
    · rw [if_pos hp] at hhigh ⊢
      rw [if_pos (ha.1.1 hp), parseHigh_eq (ha.2 hp) hhigh]
    · rw [if_neg hp, if_neg (fun hge => hp (ha.1.2 hge))]
      rfl
  unfold parseSps
  simp only [hhead _ hprof _ _ hg', parsePoc_eq hpoc, Option.bind_eq_bind, Option.bind_some]

/-! ## Emulation prevention -/

theorem mpUnescape03_cons {b : UInt8} {bs : List UInt8}
    (h : ∀ rest, b :: bs ≠ 0 :: 0 :: 3 :: rest) :
    mpUnescape03 (b :: bs) = b :: mpUnescape03 bs := by
  rw [mpUnescape03]
  intro rest hb hbs
  exact h rest (by rw [hb, hbs])

/-- Zeros that have been written and are not followed by a three. -/
theorem mpUnescape03_zeros {bs : List UInt8} (hz : z ≤ 2)
    (h : ∀ b rest, bs = b :: rest → b ≠ 0 ∧ (z = 2 → b ≠ 3)) :
    mpUnescape03 (List.replicate z 0 ++ bs) = List.replicate z 0 ++ mpUnescape03 bs := by
  match z with
  | 0 => rfl
  | 1 =>
    rw [List.replicate_one, List.singleton_append, mpUnescape03_cons]
    · rfl
    · intro rest heq
      injection heq with _ heq
      exact (h 0 (3 :: rest) heq).1 rfl
  | 2 =>
    change mpUnescape03 (0 :: 0 :: bs) = 0 :: 0 :: mpUnescape03 bs
    rw [mpUnescape03_cons, mpUnescape03_cons]
    · intro rest heq
      injection heq with _ heq
      exact (h 0 (3 :: rest) heq).1 rfl
    · intro rest heq
      injection heq with _ heq
      injection heq with _ heq
      exact (h 3 rest heq).2 rfl rfl

/-- Unescaping gives back what was escaped, after the zeros before it. -/
theorem mpUnescape03_escape03 (hz : z ≤ 2) (bs : List UInt8) :
    mpUnescape03 (List.replicate z 0 ++ escape03 z bs) = List.replicate z 0 ++ bs := by
  induction bs generalizing z with
  | nil =>
    rw [escape03, mpUnescape03_zeros hz (by simp)]
    rfl
  | cons b bs ih =>
    unfold escape03
    split
    · rename_i hcase
      obtain ⟨rfl, -⟩ := hcase
      change mpUnescape03 (0 :: 0 :: 3 :: b :: _) = 0 :: 0 :: b :: bs
      rw [mpUnescape03]
      by_cases hb : b = 0
      · have := ih (z := 1) (by decide)
        subst hb
        simpa using this
      · have := ih (z := 0) (by decide)
        rw [if_neg hb, mpUnescape03_cons (fun rest heq => hb (List.cons.inj heq).1)]
        simpa using this
    · rename_i hcase
      by_cases hb : b = 0
      · subst hb
        have hz2 : z ≠ 2 := fun h2 => hcase ⟨h2, by decide⟩
        have := ih (z := z + 1) (by omega)
        rw [List.replicate_succ', List.append_assoc, List.append_assoc] at this
        rw [if_pos rfl]
        exact this
      · have := ih (z := 0) (by decide)
        have hthree : z = 2 → b ≠ 3 := fun h2 h3 => hcase ⟨h2, by rw [h3]; decide⟩
        rw [if_neg hb, mpUnescape03_zeros hz fun b' rest heq => by
          injection heq with h1 _
          exact h1 ▸ ⟨hb, hthree⟩]
        rw [mpUnescape03_cons (fun rest heq => hb (List.cons.inj heq).1)]
        simpa using this

/-- The buffer begins with what was escaped. -/
theorem bitsAt_spsBuffer {rbsp : List UInt8} {l : List Bool}
    (hlen : (escape03 0 rbsp).length ≤ 100 * 1024 * 1024) (h : BitsAt rbsp 0 l) :
    BitsAt (spsBuffer (escape03 0 rbsp)) 0 l := by
  have hplain := mpUnescape03_escape03 (z := 0) (by decide) rbsp
  simp only [List.replicate_zero, List.nil_append] at hplain
  unfold spsBuffer BitsAt
  rw [List.take_of_length_le hlen]
  simp only [hplain, bytesBits_append, List.drop_zero]
  exact List.IsPrefix.trans h (List.prefix_append _ _)

/-! ## There are such inputs -/

theorem length_escape03_le (z : Nat) (bs : List UInt8) :
    (escape03 z bs).length ≤ 2 * bs.length := by
  induction bs generalizing z with
  | nil => simp [escape03]
  | cons b bs ih =>
    unfold escape03
    split
    · have := ih (if b = 0 then 1 else 0)
      simp only [List.length_cons]
      omega
    · have := ih (if b = 0 then z + 1 else 0)
      simp only [List.length_cons]
      omega

theorem length_ueBits_le (hv : v + 1 < 2 ^ 32) : (ueBits v).length ≤ 63 := by
  have := log2_succ_le hv
  rw [length_ueBits]
  omega

theorem length_flatMap_le {α : Type} {f : α → List Bool} {l : List α}
    (h : ∀ a ∈ l, (f a).length ≤ m) : (l.flatMap f).length ≤ l.length * m := by
  induction l with
  | nil => simp
  | cons a l ih =>
    have h1 := h a (by simp)
    have h2 := ih fun b hb => h b (List.mem_cons_of_mem a hb)
    rw [List.flatMap_cons, List.length_append, List.length_cons, Nat.add_mul]
    omega

theorem DeltasFit.length_le {ds : List Int} (h : DeltasFit k v ds) :
    (ds.flatMap fun d => ueBits (seValue d)).length ≤ k * 63 := by
  induction k generalizing v ds with
  | zero =>
    cases h
    simp
  | succ k ih =>
    match v, ds with
    | 0, ds =>
      cases h
      simp
    | v + 1, [] => cases h
    | v + 1, d :: ds =>
      obtain ⟨hlow, hhigh, hrest⟩ := h
      have hd : (ueBits (seValue d)).length ≤ 63 := length_ueBits_le (by
        unfold seValue
        split <;> omega)
      have := ih hrest
      rw [List.flatMap_cons, List.length_append, Nat.add_mul]
      omega

theorem ListsFit.length_le {ks : List Nat} {lists : List (Option (List Int))}
    (h : ListsFit ks lists) (hk : ∀ k ∈ ks, k ≤ 64) :
    (lists.flatMap listBits).length ≤ ks.length * 4033 := by
  have hlen : lists.length = ks.length := (List.Forall₂.length_eq h).symm
  rw [← hlen]
  refine length_flatMap_le fun ds hds => ?_
  cases ds with
  | none => simp [listBits]
  | some ds =>
    obtain ⟨k, hkmem, hfit⟩ : ∃ k ∈ ks, DeltasFit k 8 ds := by
      clear hlen hk
      induction h with
      | nil => cases hds
      | @cons k ds' ks lists hds' _ ih =>
        rcases List.mem_cons.1 hds with rfl | hmem
        · exact ⟨k, by simp, hds' ds rfl⟩
        · obtain ⟨k', hk', hfit⟩ := ih hmem
          exact ⟨k', List.mem_cons_of_mem _ hk', hfit⟩
    have h1 := hfit.length_le
    have h2 := hk k hkmem
    rw [listBits, List.length_cons]
    omega

theorem HighFields.length_le (f : HighFields) : f.bits.length ≤ 50000 := by
  have h1 := length_ueBits_le (v := f.chromaFormat) (by omega)
  have h2 := length_ueBits_le f.lumaDepth.2
  have h3 := length_ueBits_le f.chromaDepth.2
  have h4 : (if f.chromaFormat = 3 then [f.separatePlane] else []).length ≤ 1 := by
    split <;> simp
  have h5 : (match f.scaling with
      | none => [false]
      | some lists => true :: lists.flatMap listBits).length ≤ 1 + 12 * 4033 := by
    have hfits := f.scaling_fit
    cases hs : f.scaling with
    | none => simp
    | some lists =>
      have hle := (hfits lists hs).length_le fun k hk => by
        rcases List.mem_append.1 hk with hk | hk
        · rw [List.eq_of_mem_replicate hk]
          decide
        · rw [List.eq_of_mem_replicate hk]
      have hcount : (if f.chromaFormat = 3 then 6 else 2) ≤ 6 := by split <;> decide
      rw [List.length_append, List.length_replicate, List.length_replicate] at hle
      rw [List.length_cons]
      generalize (if f.chromaFormat = 3 then 6 else 2) = count at *
      have := Nat.mul_le_mul_right 4033 (show 6 + count ≤ 12 by omega)
      omega
  unfold HighFields.bits
  simp only [List.length_append, List.length_cons]
  omega

theorem PocFields.length_le (f : PocFields) : f.bits.length ≤ 20000 := by
  match f with
  | .type0 lsb =>
    have h1 := length_ueBits_le (v := 0) (by decide)
    have h2 := length_ueBits_le lsb.2
    rw [PocFields.bits, List.length_append]
    omega
  | .type2 =>
    have h1 := length_ueBits_le (v := 2) (by decide)
    rw [PocFields.bits]
    omega
  | .type1 zero nonRef topToBottom cycle hcycle =>
    have h1 := length_ueBits_le (v := 1) (by decide)
    have h2 := length_ueBits_le (seValue_lt nonRef)
    have h3 := length_ueBits_le (seValue_lt topToBottom)
    have h4 := length_ueBits_le (v := cycle.length) (by omega)
    have h5 := length_flatMap_le (l := cycle) (m := 63) fun v _ => length_ueBits_le (seValue_lt v)
    have h6 := Nat.mul_le_mul_right 63 hcycle
    rw [PocFields.bits]
    simp only [List.length_append, List.length_cons]
    omega

theorem VuiFields.length_le (v : VuiFields) : v.bits.length ≤ 400 := by
  have h1 : (aspectIdcBits v.aspect v.sar).length ≤ 41 := by
    unfold aspectIdcBits
    split
    · simp
    · rw [List.length_cons, List.length_append, length_natBits]
      split <;> simp
  have h2 : (overscanBits v.overscan).length ≤ 2 := by
    unfold overscanBits
    split <;> simp
  have h3 : (signalBits v.videoSignal).length ≤ 30 := by
    unfold signalBits
    split <;> simp
  have h4 : (chromaLocBits v.chromaLoc).length ≤ 127 := by
    unfold chromaLocBits
    split
    · simp
    · rename_i top bottom _
      have ht := length_ueBits_le top.2
      have hb := length_ueBits_le bottom.2
      rw [List.length_cons, List.length_append]
      omega
  have h5 : (timingBits v.timing).length ≤ 66 := by
    unfold timingBits
    split <;> simp
  unfold VuiFields.bits
  simp only [List.length_append]
  omega

theorem Sps.length_le (s : Sps) : s.bits.length ≤ 80000 := by
  have h1 := length_ueBits_le s.id.2
  have h2 : (if s.profile.toNat ∈ highProfiles then s.high.bits else []).length ≤ 50000 := by
    have := s.high.length_le
    split
    · exact this
    · simp
  have h3 := length_ueBits_le s.maxFrameNum.2
  have h4 := s.poc.length_le
  have h5 := length_ueBits_le s.refFrames.2
  have h6 := length_ueBits_le (v := s.widthInMbs - 1) (by have := s.width_pos; omega)
  have h7 := length_ueBits_le (v := s.heightInMapUnits - 1) (by have := s.height_pos; omega)
  have h8 : (if s.frameMbsOnly then [] else [s.mbAdaptive]).length ≤ 1 := by split <;> simp
  have h9 : (cropBits s.crop).length ≤ 253 := by
    unfold cropBits
    split
    · simp
    · rename_i left right top bottom _
      have hl := length_ueBits_le left.2
      have hr := length_ueBits_le right.2
      have ht := length_ueBits_le top.2
      have hb := length_ueBits_le bottom.2
      simp only [List.length_cons, List.length_append]
      omega
  have h10 : (vuiBits s.vui).length ≤ 401 := by
    cases s.vui with
    | none => simp [vuiBits]
    | some v =>
      have := v.length_le
      rw [vuiBits, List.length_cons]
      omega
  unfold Sps.bits Sps.sizeBits
  simp only [List.length_append, List.length_cons, length_natBits]
  omega

/-- Every parameter set is in some input. -/
theorem Sps.exists_input (s : Sps) :
    ∃ rbsp, BitsAt rbsp 0 s.bits ∧ (escape03 0 rbsp).length ≤ 100 * 1024 * 1024 := by
  obtain ⟨rbsp, hlen, hbits⟩ := exists_bytesBits s.bits.length
    (l := s.bits ++ List.replicate (7 * s.bits.length) false) (by simp; omega)
  refine ⟨rbsp, ?_, ?_⟩
  · rw [BitsAt, hbits]
    exact List.prefix_append _ _
  · have h1 := length_escape03_le 0 rbsp
    have h2 := s.length_le
    omega

/-! ## When a parameter set is read as it is written -/

/-- What the parser makes of every input with the parameter set. -/
theorem h264ParseSps_eq {picture : MpegHeader} {rbsp : List UInt8} {s : Sps} (ha : s.Aligned)
    (h : BitsAt rbsp 0 s.bits) (hlen : (escape03 0 rbsp).length ≤ 100 * 1024 * 1024) :
    ∃ picture' picture'' m, h264ParseSps picture (escape03 0 rbsp) = some (picture'', m) ∧
      picture'.displayPictureWidth = 16 * (golombRead (s.widthInMbs - 1) + 1) ∧
      picture'.displayPictureHeight =
        16 * (2 - s.frameMbsOnly.toNat) * (golombRead (s.heightInMapUnits - 1) + 1) ∧
      FoundVui s.vui picture' picture'' := by
  obtain ⟨n, hsize, hparse⟩ := @parseSps_eq picture _ _ ha (bitsAt_spsBuffer hlen h)
  rw [h264ParseSps, hparse]
  exact parseSize_eq hsize

/-- If a parameter set is read as it is written, the codes of its sizes are read right. -/
theorem SpsDecodes.sizes {s : Sps} (hdecodes : SpsDecodes s) (ha : s.Aligned) :
    SizeReadable s.widthInMbs ∧ SizeReadable s.heightInMapUnits := by
  have hfactor : 0 < 16 * (2 - s.frameMbsOnly.toNat) := by
    cases s.frameMbsOnly <;> decide
  obtain ⟨rbsp, hbits, hlen⟩ := s.exists_input
  obtain ⟨picture', n, hread, hfound⟩ := hdecodes ⟨0, 0, 0, 0, 0, 0, 0⟩ rbsp hbits hlen
  obtain ⟨p, p', m, hparse, hwidth, hheight, hvui⟩ :=
    @h264ParseSps_eq ⟨0, 0, 0, 0, 0, 0, 0⟩ _ _ ha hbits hlen
  rw [hparse, Option.some_inj, Prod.mk.injEq] at hread
  obtain ⟨rfl, -⟩ := hread
  have h1 := hfound.width
  have h2 := hfound.height
  rw [hvui.width, hwidth] at h1
  rw [hvui.height, hheight] at h2
  exact ⟨(golombRead_eq_iff s.width_pos.1).1 (Nat.eq_of_mul_eq_mul_left (by decide) h1),
    (golombRead_eq_iff s.height_pos.1).1 (Nat.eq_of_mul_eq_mul_left hfactor h2)⟩

/-- Where the parser sees the profile and the scaling lists as the standard does, a parameter set
is read as it is written exactly if both sizes have codes that are read right. -/
theorem sps_decodes_iff (s : Sps) (ha : s.Aligned) :
    SpsDecodes s ↔ SizeReadable s.widthInMbs ∧ SizeReadable s.heightInMapUnits := by
  constructor
  · exact fun h => h.sizes ha
  · intro ⟨hw, hh⟩ picture rbsp hbits hlen
    obtain ⟨p, p', m, hparse, hwidth, hheight, hvui⟩ :=
      @h264ParseSps_eq picture _ _ ha hbits hlen
    rw [(golombRead_eq_iff s.width_pos.1).2 hw] at hwidth
    rw [(golombRead_eq_iff s.height_pos.1).2 hh] at hheight
    exact ⟨p', m, hparse, hvui.width.trans hwidth, hvui.height.trans hheight, hvui.aspect,
      hvui.timing⟩

/-- A parameter set of this profile and size, with nothing optional. -/
def plainSps (profile : BitVec 8) (width height : Nat) (hw : 0 < width ∧ width < 2 ^ 16)
    (hh : 0 < height ∧ height < 2 ^ 16) : Sps where
  profile := profile
  constraints := 0
  level := 40
  id := ⟨0, by decide⟩
  high := ⟨1, false, ⟨0, by decide⟩, ⟨0, by decide⟩, false, none, by simp⟩
  maxFrameNum := ⟨0, by decide⟩
  poc := .type2
  refFrames := ⟨4, by decide⟩
  gaps := false
  widthInMbs := width
  width_pos := hw
  heightInMapUnits := height
  height_pos := hh
  frameMbsOnly := true
  mbAdaptive := false
  direct8x8 := true
  crop := none
  vui := none

/-- A set with a scaling list, cropping, an aspect ratio, and timing whose zeros are escaped. -/
def fullSps : Sps :=
  { plainSps 100 120 68 (by decide) (by decide) with
    high := ⟨1, false, ⟨0, by decide⟩, ⟨0, by decide⟩, false,
      some (some [-8] :: List.replicate 7 none), by simp [ListsFit, DeltasFit, List.replicate]⟩
    crop := some (⟨0, by decide⟩, ⟨0, by decide⟩, ⟨0, by decide⟩, ⟨4, by decide⟩)
    vui := some ⟨some 255, 0x00400021, none, none, none, some (1, 50, true)⟩ }

theorem sps_decodes_full : SpsDecodes fullSps :=
  (sps_decodes_iff fullSps ⟨by decide, fun _ h => absurd h (by decide)⟩).2
    ⟨.inl (by decide), .inl (by decide)⟩

/-- A picture of 640 macroblocks in a row is not. -/
theorem not_sps_decodes_640 :
    ¬SpsDecodes (plainSps 77 640 360 (by decide) (by decide)) := by
  intro h
  have hw := (h.sizes ⟨by decide, fun _ h => absurd h (by decide)⟩).1
  have hlog : Nat.log2 640 = 9 := by decide
  have : ¬SizeReadable 640 := by
    rw [SizeReadable, hlog]
    decide
  exact this hw

end MPlayer.MpegHdr
