import MPlayer.Lib.Fuel
import Mathlib.Logic.Function.Basic

/-!
# Demuxer streams

A `demux_stream_t` keeps the packets that the demuxer found and the decoder did
not ask for yet: a linked list of packets on the heap, of which the first one not
read becomes the window `[buffer_pos, buffer_size)` of `buffer`.  The readers
`demux_read_data`, `demux_getc` and `ds_get_packet` share the window, and
`ds_fill_buffer` replaces it.

A NULL buffer is the empty list.  A time stamp is a value of `τ`, MP_NOPTS_VALUE
is `none`.  Counters are integers without a bound.  A function gives `none` where
it would follow a pointer to no packet.

The `fill_buffer` callback of a demuxer is not one function but one for each
format.  What its calls do is given as the list of their answers.
-/

namespace MPlayer

open Lib

variable {τ : Type}

/-! ## Data -/

/-- `MAX_PACKS`. -/
def maxPacks : Int := 4096

/-- `MAX_PACK_BYTES`. -/
def maxPackBytes : Int := 0x2000000

/-- What a demuxer puts into a packet. -/
structure PacketData (τ : Type) where
  payload : List UInt8
  pts : Option τ
  endpts : Option τ
  streamPts : Option τ
  pos : Int
  flags : Int

/-- `demux_packet_t`: a packet on the heap. -/
structure DemuxPacket (τ : Type) extends PacketData τ where
  next : Option Nat

/-- The `len` of a packet. -/
def PacketData.len (p : PacketData τ) : Int := p.payload.length

/-- `demux_stream_t`. -/
structure DemuxStream (τ : Type) where
  bufferPos : Int
  bufferSize : Int
  buffer : List UInt8
  pts : τ
  ptsBytes : Int
  eof : Bool
  pos : Int
  dpos : Int
  packNo : Int
  flags : Int
  fillCount : Int
  packs : Int
  bytes : Int
  first : Option Nat
  last : Option Nat
  current : Option Nat
  asfPacket : Option Nat

/-- What `demux->audio` or `demux->video` is: no stream, the one modelled, or
another one with its counters. -/
inductive DemuxSlot where
  | null
  | self
  | other (packs bytes : Int)

/-- The demuxer, seen from one of its streams, with the packets on the heap. -/
structure Demuxer (τ : Type) where
  ds : DemuxStream τ
  audio : DemuxSlot
  video : DemuxSlot
  /-- The video stream has a header, and `needs_parsing` is not set in it. -/
  videoParsed : Bool
  forceNi : Bool
  streamPts : Option τ
  cells : Nat → Option (DemuxPacket τ)
  /-- The next address an allocation gives. -/
  fresh : Nat

/-- What one call of `fill_buffer` did: its result, the packets it added to the
stream, and what it left of the other streams. -/
structure DemuxFill (τ : Type) where
  ok : Bool
  packets : List (PacketData τ)
  audio : DemuxSlot
  video : DemuxSlot
  videoParsed : Bool

/-- `slot ? slot->packs : 0`. -/
def DemuxSlot.packs (ds : DemuxStream τ) : DemuxSlot → Int
  | null => 0
  | self => ds.packs
  | other packs _ => packs

/-- `slot ? slot->bytes : 0`. -/
def DemuxSlot.bytes (ds : DemuxStream τ) : DemuxSlot → Int
  | null => 0
  | self => ds.bytes
  | other _ bytes => bytes

/-- `slot != NULL`. -/
def DemuxSlot.present : DemuxSlot → Bool
  | null => false
  | _ => true

/-- `new_demuxer_stream`. -/
def newDemuxerStream [OfNat τ 0] : DemuxStream τ where
  bufferPos := 0
  bufferSize := 0
  buffer := []
  pts := 0
  ptsBytes := 0
  eof := false
  pos := 0
  dpos := 0
  packNo := 0
  flags := 0
  fillCount := 0
  packs := 0
  bytes := 0
  first := none
  last := none
  current := none
  asfPacket := none

/-! ## Packets -/

/-- `new_demux_packet`, with the fields its caller sets. -/
def newDemuxPacket (p : PacketData τ) (d : Demuxer τ) : Demuxer τ :=
  { d with
    cells := Function.update d.cells d.fresh (some { p with next := none })
    fresh := d.fresh + 1 }

/-- `free_demux_packet` of a pointer that may be NULL. -/
def freeDemuxPacket (d : Demuxer τ) : Option Nat → Demuxer τ
  | none => d
  | some dp => { d with cells := Function.update d.cells dp none }

/-- `ds_add_packet_internal`. -/
def dsAddPacketInternal (d : Demuxer τ) (dp : Nat) : Option (Demuxer τ) := do
  let p ← d.cells dp
  let ds := { d.ds with packs := d.ds.packs + 1, bytes := d.ds.bytes + p.len }
  match ds.last with
  | some last =>
    let q ← d.cells last
    some { d with
      cells := Function.update d.cells last (some { q with next := some dp })
      ds := { ds with last := some dp } }
  | none => some { d with ds := { ds with first := some dp, last := some dp } }

/-- `ds_add_packet`: `PARSE_ON_ADD` is 0. -/
def dsAddPacket (d : Demuxer τ) (dp : Nat) : Option (Demuxer τ) :=
  dsAddPacketInternal d dp

/-- A new packet added to the stream. -/
def addNewPacket (p : PacketData τ) (d : Demuxer τ) : Option (Demuxer τ) :=
  dsAddPacket (newDemuxPacket p d) d.fresh

/-- New packets added to the stream one after another. -/
def addNewPackets : List (PacketData τ) → Demuxer τ → Option (Demuxer τ)
  | [], d => some d
  | p :: ps, d => addNewPacket p d >>= addNewPackets ps

/-- `demux_fill_buffer`, as the answer `f` says. -/
def demuxFillBuffer (f : DemuxFill τ) (d : Demuxer τ) : Option (Demuxer τ) := do
  let d ← addNewPackets f.packets d
  some { d with audio := f.audio, video := f.video, videoParsed := f.videoParsed }

/-! ## Filling the window -/

/-- The part of `ds_fill_buffer` that takes the first packet. -/
def dsTakePacket (d : Demuxer τ) : Option (Demuxer τ) := do
  let first ← d.ds.first
  let p ← d.cells first
  some { d with
    streamPts := match p.streamPts with
      | some t => some t
      | none => d.streamPts
    ds := { d.ds with
      eof := false
      fillCount := 0
      buffer := p.payload
      bufferPos := 0
      bufferSize := p.len
      pos := p.pos
      dpos := d.ds.dpos + p.len
      packNo := d.ds.packNo + 1
      pts := p.pts.getD d.ds.pts
      ptsBytes := (if p.pts.isSome then 0 else d.ds.ptsBytes) + p.len
      flags := p.flags
      bytes := d.ds.bytes - p.len
      current := some first
      first := p.next
      last := if p.next = none then none else d.ds.last
      packs := d.ds.packs - 1 } }

/-- The end of `ds_fill_buffer`. -/
def dsEndOfStream (d : Demuxer τ) : Demuxer τ :=
  { d with ds := { d.ds with bufferPos := 0, bufferSize := 0, buffer := [], eof := true } }

/-- Whether `ds_fill_buffer` does without asking the demuxer: it asked too often,
the stream ended, or too much is queued. -/
def dsGivesUp (d : Demuxer τ) : Bool :=
  (!d.forceNi && d.ds.fillCount > 80) || d.ds.eof ||
    (!d.forceNi && (d.audio.packs d.ds ≥ maxPacks || d.audio.bytes d.ds ≥ maxPackBytes)) ||
    (!d.forceNi && (d.video.packs d.ds ≥ maxPacks || d.video.bytes d.ds ≥ maxPackBytes))

/-- How `fill_count` changes when a call of the demuxer led from `d` to `d'`. -/
def dsCountFill (d d' : Demuxer τ) : Demuxer τ :=
  let count := d'.ds.fillCount +
    if d'.audio.present then d'.audio.packs d'.ds - d.audio.packs d.ds else 0
  let more := d'.video.present && d'.video.packs d'.ds > d.video.packs d.ds &&
    d'.video.bytes d'.ds > d.video.bytes d.ds + 100 && d'.videoParsed
  { d' with ds := { d'.ds with fillCount := if more then count + 1 else count } }

/-- The loop of `ds_fill_buffer`.  It gives what the function returns and the
answers it has not asked for, and nothing if they run out. -/
def dsFillLoop (fills : List (DemuxFill τ)) (d : Demuxer τ) :
    Option (Bool × Demuxer τ × List (DemuxFill τ)) :=
  if d.ds.packs ≠ 0 then (dsTakePacket d).map fun d' => (true, d', fills)
  else if dsGivesUp d then some (false, dsEndOfStream d, fills)
  else
    match fills with
    | [] => none
    | f :: fills =>
      (demuxFillBuffer f d).bind fun d' =>
        if f.ok then dsFillLoop fills (dsCountFill d d')
        else some (false, dsEndOfStream d', fills)

/-- `ds_fill_buffer`. -/
def dsFillBuffer (fills : List (DemuxFill τ)) (d : Demuxer τ) :
    Option (Bool × Demuxer τ × List (DemuxFill τ)) :=
  let d := freeDemuxPacket d d.ds.current
  dsFillLoop fills { d with ds := { d.ds with current := none } }

/-! ## Readers -/

/-- `ds_tell`. -/
def dsTell (ds : DemuxStream τ) : Int := ds.dpos - ds.bufferSize + ds.bufferPos

/-- `x` bytes of the buffer from `buffer_pos` on, and `buffer_pos` behind them. -/
def dsWindow (ds : DemuxStream τ) (x : Int) : List UInt8 :=
  (ds.buffer.drop ds.bufferPos.toNat).take x.toNat

/-- `ds->buffer_pos += x`. -/
def dsAdvance (d : Demuxer τ) (x : Int) : Demuxer τ :=
  { d with ds := { d.ds with bufferPos := d.ds.bufferPos + x } }

/-- The loop of `demux_read_data`, with the bytes it copied.  A negative count is
no copy the code could make. -/
def demuxReadData : Nat → List (DemuxFill τ) → Demuxer τ → Int →
    Option (List UInt8 × Demuxer τ × List (DemuxFill τ))
  | 0, _, _, _ => none
  | fuel + 1, fills, d, len =>
    if 0 < len then
      let x := d.ds.bufferSize - d.ds.bufferPos
      if x = 0 then
        (dsFillBuffer fills d).bind fun (ok, d, fills) =>
          if ok then demuxReadData fuel fills d len else some ([], d, fills)
      else if x < 0 then none
      else
        let x := min x len
        (demuxReadData fuel fills (dsAdvance d x) (len - x)).map
          fun (mem, rest) => (dsWindow d.ds x ++ mem, rest)
    else some ([], d, fills)

/-- `demux_getc`.  The byte is `some none` if it is read outside of the buffer,
and `none` is the result -1. -/
def demuxGetc (fills : List (DemuxFill τ)) (d : Demuxer τ) :
    Option (Option (Option UInt8) × Demuxer τ × List (DemuxFill τ)) :=
  if d.ds.bufferPos < d.ds.bufferSize then
    some (some d.ds.buffer[d.ds.bufferPos.toNat]?, dsAdvance d 1, fills)
  else
    (dsFillBuffer fills d).map fun (ok, d, fills) =>
      if ok then (some d.ds.buffer[d.ds.bufferPos.toNat]?, dsAdvance d 1, fills)
      else (none, d, fills)

/-- `ds_get_packet`: the length returned, and the bytes at `*start`. -/
def dsGetPacket (fills : List (DemuxFill τ)) (d : Demuxer τ) :
    Option ((Int × List UInt8) × Demuxer τ × List (DemuxFill τ)) :=
  let take := fun (d : Demuxer τ) (fills : List (DemuxFill τ)) =>
    let len := d.ds.bufferSize - d.ds.bufferPos
    ((len, dsWindow d.ds len), dsAdvance d len, fills)
  if d.ds.bufferPos ≥ d.ds.bufferSize then
    (dsFillBuffer fills d).map fun (ok, d, fills) =>
      if ok then take d fills else ((-1, []), d, fills)
  else some (take d fills)

/-- The loop of `ds_free_packs`. -/
def dsFreeList : Nat → Demuxer τ → Option Nat → Option (Demuxer τ)
  | 0, _, _ => none
  | _ + 1, d, none => some d
  | fuel + 1, d, some dp =>
    (d.cells dp).bind fun p => dsFreeList fuel (freeDemuxPacket d (some dp)) p.next

/-- What `ds_free_packs` does after its loop. -/
def dsResetPacks [OfNat τ 0] (d : Demuxer τ) : Demuxer τ :=
  let d := freeDemuxPacket d d.ds.asfPacket
  let d := freeDemuxPacket d d.ds.current
  { d with ds := { d.ds with
    asfPacket := none
    first := none
    last := none
    packs := 0
    bytes := 0
    current := none
    buffer := []
    bufferPos := d.ds.bufferSize
    pts := 0
    ptsBytes := 0 } }

/-- `ds_free_packs`. -/
def dsFreePacks [OfNat τ 0] (fuel : Nat) (d : Demuxer τ) : Option (Demuxer τ) :=
  (dsFreeList fuel d d.ds.first).map dsResetPacks

end MPlayer
