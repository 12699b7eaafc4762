import MPlayer.Lib.Copy
import MPlayer.Lib.Vlen

/-!
# RealAudio

RealAudio tracks are scrambled: the bytes of `sub_packet_h` blocks are put into a buffer in another
order, which is then released in packets.  `handle_realaudio` does so block by block.

An `int` that is too large is undefined, and so are a division by zero and a copy outside of the
buffer or the block.  Times are of an arbitrary type.
-/

namespace MPlayer

open Lib

/-! ## The header -/

/-- The formats of RealAudio that `handle_realaudio` tells apart. -/
inductive RaCodec where
  | i28_8
  | cook
  | atrc
  | sipr
  | other
deriving DecidableEq

/-- The fields of `mkv_track_t` that the header of a RealAudio track sets. -/
structure RaTrack where
  codec : RaCodec
  codedFramesize : UInt32
  subPacketH : UInt16
  audiopkSize : UInt16
  subPacketSize : UInt16
deriving DecidableEq

/-- `AV_RB16`. -/
def avRb16 (src : List UInt8) (i : Nat) : UInt16 := UInt16.ofNat (beValue 0 ((src.drop i).take 2))

/-- `AV_RB32`. -/
def avRb32 (src : List UInt8) (i : Nat) : UInt32 := UInt32.ofNat (beValue 0 ((src.drop i).take 4))

/-- `RAPROPERTIES4_SIZE`. -/
def raproperties4Size : Nat := 56

/-- `RAPROPERTIES5_SIZE`. -/
def raproperties5Size : Nat := 70

/-- A string with its length in front is passed over. -/
def skipString : List UInt8 → Option (List UInt8)
  | [] => none
  | n :: src => if src.length < n.toNat then none else some (src.drop n.toNat)

/-- The RealAudio branch of `demux_mkv_open_audio`, with the private data of the track. -/
def demuxMkvOpenAudio (codec : RaCodec) (src : List UInt8) : Option RaTrack := do
  guard (raproperties4Size ≤ src.length)
  let version := avRb16 src 4
  let track : RaTrack :=
    { codec := codec
      codedFramesize := avRb32 src 24
      subPacketH := avRb16 src 40
      audiopkSize := avRb16 src 42
      subPacketSize := avRb16 src 44 }
  let src ←
    if version = 4 then skipString (src.drop raproperties4Size) >>= skipString
    else if src.length < raproperties5Size then none
    else some (src.drop raproperties5Size)
  guard (4 ≤ src.length)
  let src := src.drop (if version = 5 then 4 else 3)
  guard (4 ≤ src.length)
  return track

namespace RaTrack

variable (t : RaTrack)

/-- `sps`, `sph` and `w`. -/
def sps : Nat := t.subPacketSize.toNat

def sph : Nat := t.subPacketH.toNat

def w : Nat := t.audiopkSize.toNat

/-- `cfs`, an `int`. -/
def cfs : Int := Int.bmod t.codedFramesize.toNat (2 ^ 32)

/-- `wf->nBlockAlign`, a `WORD`. -/
def nBlockAlign : Nat :=
  match t.codec with
  | .i28_8 | .sipr => t.codedFramesize.toNat % 2 ^ 16
  | .cook | .atrc => t.sps
  | .other => t.w

end RaTrack

/-! ## Blocks -/

/-- The number is an `int`. -/
def IsInt (n : Nat) : Prop := n < 2 ^ 31

instance : DecidablePred IsInt := fun n => inferInstanceAs (Decidable (n < 2 ^ 31))

/-- A number of type `int`. -/
def toInt (n : Nat) : Except Fault Nat := if IsInt n then .ok n else .error .undefined

/-- The copies from a block to the buffer: their number, their length, where copy `x` of block `spc`
begins in the buffer and in the block, and the products of type `int` that say so. -/
structure Copies where
  count : Nat
  len : Nat
  dst : Nat → Nat → Nat
  src : Nat → Nat
  ints : Nat → Nat → List Nat

/-- The loop of copies. -/
def Copies.store (c : Copies) (spc : Nat) (audioBuf buffer : List UInt8) :
    Except Fault (List UInt8) :=
  (List.range c.count).foldlM (fun audioBuf x =>
    if ∀ n ∈ c.ints spc x, IsInt n then copyInto audioBuf (c.dst spc x) buffer (c.src x) c.len
    else .error .undefined) audioBuf

/-- The copies of `28_8`. -/
def copies28_8 (t : RaTrack) : Copies where
  count := t.sph / 2
  len := t.cfs.toNat
  dst spc x := x * 2 * t.w + spc * t.cfs.toNat
  src x := t.cfs.toNat * x
  ints spc x := [x * 2 * t.w, spc * t.cfs.toNat, t.cfs.toNat * x]

/-- The copies of `cook` and `atrc`. -/
def copiesCook (t : RaTrack) : Copies where
  count := t.w / t.sps
  len := t.sps
  dst spc x := t.sps * (t.sph * x + ((t.sph + 1) / 2) * (spc % 2) + spc / 2)
  src x := t.sps * x
  ints spc x := [t.sps * (t.sph * x + ((t.sph + 1) / 2) * (spc % 2) + spc / 2), t.sps * x]

/-- The copy of `sipr`. -/
def copiesSipr (t : RaTrack) : Copies where
  count := 1
  len := t.w
  dst spc _ := spc * t.w
  src _ := 0
  ints spc _ := [spc * t.w]

/-- `sipr_swaps`. -/
def siprSwaps : List (Nat × Nat) :=
  [(0, 63), (1, 22), (2, 44), (3, 90), (5, 81), (7, 31), (8, 86), (9, 58), (10, 36), (12, 68),
    (13, 39), (14, 73), (15, 53), (16, 69), (17, 57), (19, 88), (20, 34), (21, 71), (24, 46),
    (25, 94), (26, 54), (28, 75), (29, 50), (32, 70), (33, 92), (35, 74), (38, 85), (40, 56),
    (42, 87), (43, 65), (45, 59), (48, 79), (49, 93), (51, 89), (55, 95), (61, 76), (67, 83),
    (77, 80)]

/-- The nibble `i` of its byte. -/
def byteNibble (b : UInt8) (i : Nat) : UInt8 := if i % 2 = 1 then b >>> 4 else b &&& 0x0F

/-- The nibble `i` of its byte set. -/
def byteWithNibble (b : UInt8) (i : Nat) (x : UInt8) : UInt8 :=
  if i % 2 = 1 then (b &&& 0x0F) ||| (x <<< (4 : UInt8)) else (b &&& 0xF0) ||| x

/-- The nibble `i` of the buffer. -/
def getNibble (buf : List UInt8) (i : Nat) : Except Fault UInt8 :=
  match buf[i / 2]? with
  | none => .error .undefined
  | some b => .ok (byteNibble b i)

/-- The nibble `i` of the buffer set. -/
def setNibble (buf : List UInt8) (i : Nat) (x : UInt8) : Except Fault (List UInt8) :=
  match buf[i / 2]? with
  | none => .error .undefined
  | some b => .ok (buf.set (i / 2) (byteWithNibble b i x))

/-- The nibbles `i` and `o` swapped. -/
def swapNibbles (buf : List UInt8) (i o : Nat) : Except Fault (List UInt8) := do
  let x ← getNibble buf i
  let y ← getNibble buf o
  let buf ← setNibble buf o x
  setNibble buf i y

/-- The reordering of `sipr` in runs of `bs` nibbles. -/
def siprReorder (bs : Nat) (buf : List UInt8) : Except Fault (List UInt8) :=
  siprSwaps.foldlM (fun buf n =>
    (List.range bs).foldlM (fun buf j => swapNibbles buf (bs * n.1 + j) (bs * n.2 + j)) buf) buf

/-- The branches for the formats. -/
def storeBlock (t : RaTrack) (spc : Nat) (audioBuf buffer : List UInt8) :
    Except Fault (List UInt8) :=
  match t.codec with
  | .i28_8 =>
    -- a negative length is a huge one for `memcpy`
    if 0 < t.sph / 2 ∧ t.cfs < 0 then .error .undefined
    else (copies28_8 t).store spc audioBuf buffer
  | .cook | .atrc =>
    if t.sps = 0 then .error .undefined else (copiesCook t).store spc audioBuf buffer
  | .sipr => do
    let audioBuf ← (copiesSipr t).store spc audioBuf buffer
    if spc + 1 = t.sph then do
      let n ← toInt (t.sph * t.w * 2)
      siprReorder (n / 96) audioBuf
    else .ok audioBuf
  | .other => .ok audioBuf

/-! ## Packets -/

/-- The fields of a packet that are set. -/
structure RaPacket (T : Type) where
  buffer : List UInt8
  pts : T
  pos : Nat
  flags : Nat

/-- What `handle_realaudio` reads of the demuxer, and whether `block_bref` is set. -/
structure RaEnv (T : Type) where
  lastPts : T
  filepos : Nat
  aSkipToKeyframe : Bool
  blockBref : Bool

/-- What `handle_realaudio` changes of the track. -/
structure RaState (T : Type) where
  audioBuf : List UInt8
  audioTimestamp : List T
  subPacketCnt : Nat
  raPts : T
  audioFilepos : Nat

section Packets

variable {T : Type} [Zero T] [DecidableEq T]

/-- The state behind `demux_mkv_open_audio`. -/
def RaState.start (t : RaTrack) : RaState T where
  audioBuf := List.replicate (t.sph * t.w) 0
  audioTimestamp := List.replicate t.sph 0
  subPacketCnt := 0
  raPts := 0
  audioFilepos := 0

/-- The time of a packet that begins at `i`: only a packet that begins with a block has one. -/
def packetPts (t : RaTrack) (s : RaState T) (i : Nat) : Except Fault T :=
  if t.w = 0 then .error .undefined
  else if i % t.w ≠ 0 then .ok 0
  else
    match s.audioTimestamp[i / t.w]? with
    | none => .error .undefined
    | some pts => .ok pts

/-- The packet `x` of the buffer. -/
def releasePacket (t : RaTrack) (s : RaState T) (x : Nat) : Except Fault (RaPacket T) := do
  let i ← toInt (x * t.nBlockAlign)
  let pts ← packetPts t s i
  if i + t.nBlockAlign ≤ s.audioBuf.length then
    .ok ⟨(s.audioBuf.drop i).take t.nBlockAlign, pts, s.audioFilepos, if x = 0 then 0x10 else 0⟩
  else .error .undefined

/-- All packets of the buffer. -/
def releasePackets (t : RaTrack) (s : RaState T) : Except Fault (List (RaPacket T)) := do
  let n ← toInt (t.sph * t.w)
  if t.nBlockAlign = 0 then .error .undefined
  else (List.range (n / t.nBlockAlign)).mapM (releasePacket t s)

/-- Behind the last block the packets are released, and the blocks are counted from 0 again. -/
def releaseFull (t : RaTrack) (s : RaState T) : Except Fault (RaState T × List (RaPacket T)) :=
  if s.subPacketCnt = t.sph then do
    let packets ← releasePackets t s
    .ok ({ s with subPacketCnt := 0 }, packets)
  else .ok (s, [])

/-- `handle_realaudio` for a format without reordering. -/
def plainPacket (e : RaEnv T) (s : RaState T) (buffer : List UInt8) : RaPacket T where
  buffer := buffer
  pts := if s.raPts = e.lastPts ∧ e.aSkipToKeyframe = false then 0 else e.lastPts
  pos := e.filepos
  flags := if e.blockBref then 0 else 0x10

/-- A block is in the buffer. -/
def RaState.stored (s : RaState T) (e : RaEnv T) (audioBuf : List UInt8) : RaState T where
  audioBuf := audioBuf
  audioTimestamp :=
    s.audioTimestamp.set s.subPacketCnt (if s.raPts = e.lastPts then 0 else e.lastPts)
  subPacketCnt := s.subPacketCnt + 1
  raPts := e.lastPts
  audioFilepos := if s.subPacketCnt = 0 then e.filepos else s.audioFilepos

/-- `handle_realaudio`: the packets that it adds. -/
def handleRealaudio (t : RaTrack) (e : RaEnv T) (s : RaState T) (buffer : List UInt8) :
    Except Fault (RaState T × List (RaPacket T)) :=
  if t.codec = .other then .ok ({ s with raPts := e.lastPts }, [plainPacket e s buffer])
  else do
    let audioBuf ← storeBlock t s.subPacketCnt s.audioBuf buffer
    if s.audioTimestamp.length ≤ s.subPacketCnt then .error .undefined
    else releaseFull t (s.stored e audioBuf)

/-- The blocks of a track one after the other. -/
def handleBlocks (t : RaTrack) : List (RaEnv T × List UInt8) → RaState T →
    Except Fault (RaState T × List (RaPacket T))
  | [], s => .ok (s, [])
  | (e, buffer) :: blocks, s => do
    let r ← handleRealaudio t e s buffer
    let r' ← handleBlocks t blocks r.1
    .ok (r'.1, r.2 ++ r'.2)

end Packets

end MPlayer
