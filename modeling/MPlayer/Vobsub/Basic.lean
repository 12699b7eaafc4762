import MPlayer.Lib.File
import Mathlib.Logic.Function.Basic
import Mathlib.Algebra.Group.Nat.Defs

/-!
# VobSub packets

`vobsub_out_output` writes one subtitle packet to a `.sub` file as a block of 2048 bytes: a pack
header, a private PES packet, and something that fills the block.  `mpeg_run` reads the next packet
of such a file, whatever its kind.

The writer leaves out the PTS field if it would be the one of the call before it, on whatever
output, or if it does not fit.  Times are in units of 1/90000 s.  The lines of the `.idx` file,
which take their times from doubles, are not modelled, and no write fails.
-/

namespace MPlayer

open Lib

/-! ## Writing -/

/-- The PTS field for a time. -/
def nowPts (pts : Nat) : List UInt8 :=
  [(0x21 : UInt8) ||| (UInt8.ofNat (pts >>> 29) &&& 0x0e), UInt8.ofNat (pts >>> 22),
    (0x01 : UInt8) ||| (UInt8.ofNat (pts >>> 14) &&& 0xfe),
    UInt8.ofNat (pts >>> 7),
    (0x01 : UInt8) ||| (UInt8.ofNat (pts <<< 1) &&& 0xfe)]

/-- The pack header. -/
def packHeader : List UInt8 := [0, 0, 1, 0xba, 0x40] ++ List.replicate 9 0

/-- What a PES header holds. -/
structure PesLayout where
  dataLen : Nat
  ptsLen : Nat
  padLen : Nat
deriving DecidableEq

/-- `pts_len`, `pad_len` and `datalen` for a packet, where `ptsLen` is the length of the PTS
field if it is written. -/
def pesLayout (len ptsLen : Nat) : PesLayout :=
  let dataLen := len + 3 + ptsLen + 1
  let padLen : Int := 2048 - packHeader.length - 4 - 2 - dataLen
  -- too big: the PTS field is left out
  if padLen < 0 then ⟨dataLen - ptsLen, 0, 0⟩
  else if 6 < padLen then ⟨dataLen, ptsLen, 0⟩
  else ⟨dataLen + padLen.toNat, ptsLen, padLen.toNat⟩

/-- What fills a block when this many bytes remain. -/
def blockFill (remain : Int) : List UInt8 :=
  if 6 ≤ remain then
    [0, 0, 1, 0xbe, UInt8.ofNat ((remain.toNat - 6) >>> 8), UInt8.ofNat (remain.toNat - 6)] ++
      List.replicate (remain.toNat - 6) 0
  else if 0 < remain then List.replicate remain.toNat 0
  else []

/-- What `vobsub_out_output` writes for the output with this index.  `lastPts` is the PTS field of
the call before it. -/
def vobsubBlock (lastPts : List UInt8) (index : Nat) (packet : List UInt8) (pts : Nat) :
    List UInt8 :=
  let layout := pesLayout packet.length (if lastPts ≠ nowPts pts then 5 else 0)
  let header := packHeader ++
    [0, 0, 1, 0xbd, UInt8.ofNat (layout.dataLen >>> 8), UInt8.ofNat layout.dataLen, 0x80,
      if layout.ptsLen ≠ 0 then 0x80 else 0, UInt8.ofNat (layout.ptsLen + layout.padLen)] ++
    (nowPts pts).take layout.ptsLen ++ List.replicate layout.padLen 0 ++
    [0x20 ||| UInt8.ofNat index]
  let remain : Int := if packet = [] then 2048 else 2048 - (header.length + packet.length)
  header ++ packet ++ blockFill remain

/-- The outputs: the static `last_pts` that they share, and their `.sub` files. -/
structure VobsubOut (ι : Type) where
  lastPts : List UInt8
  fsub : ι → List UInt8

/-- A call of `vobsub_out_output`. -/
structure SpuCall (ι : Type) where
  out : ι
  packet : List UInt8
  pts : Nat

/-- Outputs that nothing has been written to. -/
def vobsubOutOpen (ι : Type) : VobsubOut ι := ⟨List.replicate 5 0, fun _ => []⟩

section Writing

variable {ι : Type} [DecidableEq ι]

/-- `vobsub_out_output`, for outputs with these indices. -/
def vobsubOutOutput (index : ι → Nat) (vob : VobsubOut ι) (c : SpuCall ι) : VobsubOut ι where
  lastPts := nowPts c.pts
  fsub := Function.update vob.fsub c.out
    (vob.fsub c.out ++ vobsubBlock vob.lastPts (index c.out) c.packet c.pts)

/-- The files after some calls. -/
def vobsubFiles (index : ι → Nat) (calls : List (SpuCall ι)) : ι → List UInt8 :=
  (calls.foldl (vobsubOutOutput index) (vobsubOutOpen ι)).fsub

end Writing

/-! ## Reading -/

/-- `mpeg_t`. -/
structure Mpeg where
  stream : File
  pts : Nat
  aid : Int
  packet : List UInt8
  packetSize : Nat
  paddingWasHere : Bool
  merge : Bool

/-- `mpeg_open`. -/
def mpegOpen (bytes : List UInt8) : Mpeg where
  stream := File.openRead bytes
  pts := 0
  aid := -1
  packet := []
  packetSize := 0
  paddingWasHere := true
  merge := false

/-- The loop of `mpeg_run` that looks for a start code: its last byte, and how many of the bytes
were read, or `none` if they end before. -/
def mpegSync (b0 b1 b2 b3 : UInt8) : List UInt8 → Option (UInt8 × Nat)
  | [] => if b0 = 0 ∧ b1 = 0 ∧ b2 = 1 then some (b3, 0) else none
  | c :: rest =>
    if b0 = 0 ∧ b1 = 0 ∧ b2 = 1 then some (b3, 0)
    else (mpegSync b1 b2 b3 c rest).map fun r => (r.1, r.2 + 1)

/-- `buf[0] << 8 | buf[1]`. -/
def mpegLen (buf : List UInt8) : UInt32 :=
  (buf.getD 0 0).toUInt32 <<< 8 ||| (buf.getD 1 0).toUInt32

/-- The time in a PTS field, or zero if it is not one. -/
def readPts (buf : List UInt8) : Nat :=
  let b i := buf.getD i 0
  if b 0 &&& 0xf0 = 0x20 ∧ b 0 &&& 1 = 1 ∧ b 2 &&& 1 = 1 ∧ b 4 &&& 1 = 1 then
    ((b 0 &&& 0x0e).toNat <<< 29 ||| (b 1).toNat <<< 22 ||| (b 2 &&& 0xfe).toNat <<< 14 |||
      (b 3).toNat <<< 7 ||| (b 4).toNat >>> 1) % 2 ^ 32
  else 0

/-- A pack header. -/
def mpegRunPack (mpeg : Mpeg) : Int × Mpeg :=
  match mpeg.stream.getc with
  | (none, stream) => (-1, { mpeg with stream := stream })
  | (some c, stream) =>
    let mpeg' := { mpeg with merge := mpeg.merge || !mpeg.paddingWasHere }
    if c &&& 0xc0 = 0x40 then (0, { mpeg' with stream := stream.seek (stream.pos + 9) })
    else if c &&& 0xf0 = 0x20 then (0, { mpeg' with stream := stream.seek (stream.pos + 7) })
    else (-1, { mpeg with stream := stream })

/-- A packet whose bytes are skipped. -/
def mpegRunSkip (mpeg : Mpeg) (padding : Bool) : Int × Mpeg :=
  match mpeg.stream.read 2 with
  | (none, stream) => (-1, { mpeg with stream := stream })
  | (some buf, stream) =>
    let len := (mpegLen buf).toNat
    (0, { mpeg with
      stream := if 0 < len then stream.seek (stream.pos + len) else stream
      paddingWasHere := mpeg.paddingWasHere || padding })

/-- The data of a packet, from the data index on. -/
def mpegRunData (mpeg : Mpeg) (len idx dataidx : UInt32) : Int × Mpeg :=
  match (mpeg.stream.seek dataidx.toNat).getc with
  | (none, stream) => (-1, { mpeg with stream := stream, aid := -1 })
  | (some aid, stream) =>
    let packetSize := len - (UInt32.ofNat stream.pos - idx)
    match stream.read packetSize.toNat with
    | (none, stream) => (-1, { mpeg with stream := stream, aid := aid.toNat, packetSize := 0 })
    | (some packet, stream) => (0, { mpeg with
        stream := stream, aid := aid.toNat, packet := packet, packetSize := packetSize.toNat })

/-- The extension of the header of a packet, behind its first byte. -/
def mpegRunExtension (mpeg : Mpeg) (len idx : UInt32) : Int × Mpeg :=
  match mpeg.stream.getc with
  | (none, stream) => (-1, { mpeg with stream := stream })
  | (some ptsFlags, stream) =>
    match stream.getc with
    | (none, stream) => (-1, { mpeg with stream := stream })
    | (some hdrlen, stream) =>
      let dataidx := UInt32.ofNat (stream.pos + hdrlen.toNat)
      if idx + len < dataidx then (-1, { mpeg with stream := stream })
      else if ptsFlags &&& 0xc0 = 0x80 then
        match stream.read 5 with
        | (none, stream) => (-1, { mpeg with stream := stream })
        | (some buf, stream) =>
          mpegRunData { mpeg with stream := stream, pts := readPts buf } len idx dataidx
      else mpegRunData { mpeg with stream := stream } len idx dataidx

/-- A packet, or `none` where the reader aborts. -/
def mpegRunPacket (mpeg : Mpeg) : Option (Int × Mpeg) :=
  match mpeg.stream.read 2 with
  | (none, stream) => some (-1, { mpeg with stream := stream })
  | (some buf, stream) =>
    let len := mpegLen buf
    let idx := UInt32.ofNat stream.pos
    let mpeg := { mpeg with paddingWasHere := false }
    match stream.getc with
    | (none, stream) => some (-1, { mpeg with stream := stream })
    | (some c, stream) =>
      -- the scale and the size of the STD buffer
      let r : Option UInt8 × File :=
        if c &&& 0xc0 = 0x40 then
          match stream.getc with
          | (none, stream) => (none, stream)
          | (some _, stream) => stream.getc
        else (some c, stream)
      match r with
      | (none, stream) => some (-1, { mpeg with stream := stream })
      | (some c, stream) =>
        if c &&& 0xf0 = 0x20 ∨ c &&& 0xf0 = 0x30 then none
        else if c &&& 0xc0 = 0x80 then
          some (mpegRunExtension { mpeg with stream := stream } len idx)
        else some (0, { mpeg with stream := stream })

/-- The `switch` of `mpeg_run`. -/
def mpegRunCode (mpeg : Mpeg) (code : UInt8) : Option (Int × Mpeg) :=
  if code = 0xb9 then some (0, mpeg)
  else if code = 0xba then some (mpegRunPack mpeg)
  else if code = 0xbd then mpegRunPacket mpeg
  else if code = 0xbe then some (mpegRunSkip mpeg true)
  else if 0xc0 ≤ code ∧ code < 0xf0 then some (mpegRunSkip mpeg false)
  else some (-1, mpeg)

/-- `mpeg_run`, or `none` where it aborts. -/
def mpegRun (mpeg : Mpeg) : Option (Int × Mpeg) :=
  let mpeg := { mpeg with aid := -1, packetSize := 0 }
  match mpeg.stream.read 4 with
  | (none, stream) => some (-1, { mpeg with stream := stream })
  | (some buf, stream) =>
    match mpegSync (buf.getD 0 0) (buf.getD 1 0) (buf.getD 2 0) (buf.getD 3 0) stream.rest with
    | none => some (-1, { mpeg with
        stream := { stream with pos := stream.pos + stream.rest.length, eof := true } })
    | some (code, n) => mpegRunCode { mpeg with stream := stream.skip n } code

/-- A subtitle packet as it is read. -/
structure SpuRead where
  aid : Int
  packet : List UInt8
  pts : Nat
deriving DecidableEq

/-- What the calls of `mpeg_run` up to the end of the file give. -/
inductive SubReads : Mpeg → List SpuRead → Prop
  | eof {mpeg mpeg' : Mpeg} (h : mpegRun mpeg = some (-1, mpeg'))
      (heof : mpeg'.stream.eof = true) : SubReads mpeg []
  | skip {mpeg mpeg' : Mpeg} {reads : List SpuRead} (h : mpegRun mpeg = some (0, mpeg'))
      (hsize : mpeg'.packetSize = 0) (hreads : SubReads mpeg' reads) : SubReads mpeg reads
  | packet {mpeg mpeg' : Mpeg} {reads : List SpuRead} (h : mpegRun mpeg = some (0, mpeg'))
      (hsize : 0 < mpeg'.packetSize) (hreads : SubReads mpeg' reads) :
      SubReads mpeg (⟨mpeg'.aid, mpeg'.packet, mpeg'.pts⟩ :: reads)

end MPlayer
