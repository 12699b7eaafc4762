import Mathlib.Logic.Function.Basic

/-!
# The muxer

`muxer_write_chunk` hands a frame to the container's `cont_write_chunk`.  Until every stream has
had a frame that is not empty, it buffers the frames instead, since the header needs them.  Then
`muxer_flush` writes the header and the buffered frames.

A container's callbacks only record what they are called with (`MuxerEvent`).  A `double` is a
value of any type: the muxer compares one with `MP_NOPTS_VALUE` and computes one from the counters
of a stream (`Clock`).  All allocations succeed, `malloc(0)` too, so the buffer is `NULL` if it
holds no frames.
-/

namespace MPlayer

/-! ## Streams -/

/-- What the muxer computes with doubles. -/
structure Clock (D : Type) where
  /-- `MP_NOPTS_VALUE`. -/
  nopts : D
  /-- `(double)dwLength * dwScale / dwRate`. -/
  time : UInt32 → UInt32 → UInt32 → D

/-- The counters of a stream, with the fields of its `AVIStreamHeader` that they depend on. -/
structure Counters (D : Type) where
  timer : D
  size : Int
  dwLength : UInt32
  dwScale : UInt32
  dwRate : UInt32
  dwSampleSize : UInt32
deriving DecidableEq

/-- `muxer_stream_t`. -/
structure MuxerStream (D : Type) extends Counters D where
  buffer : List UInt8
  muxbufSeen : Bool

/-- `muxbuf_t`. -/
structure Muxbuf (D : Type) (n : Nat) where
  stream : Fin n
  dts : D
  pts : D
  buffer : List UInt8
  len : Nat
  flags : Nat

/-- What `cont_write_chunk` is called with, and what it reads from the stream. -/
structure Written (D : Type) (n : Nat) where
  stream : Fin n
  bytes : List UInt8
  len : Nat
  flags : Nat
  dts : D
  pts : D
  timer : D
deriving DecidableEq

/-- The calls of the container's functions. -/
inductive MuxerEvent (D : Type) (n : Nat) where
  | fix (stream : Fin n)
  | header
  | chunk (w : Written D n)
  | index
deriving DecidableEq

/-- `muxer_t` with its streams, and all that the container's functions were called with. -/
structure Muxer (D : Type) (n : Nat) where
  streams : Fin n → MuxerStream D
  muxbuf : List (Muxbuf D n)
  muxbufSkipBuffer : Bool
  fixStreamParameters : Bool
  contWriteHeader : Bool
  contWriteIndex : Bool
  /-- The container still has a `cont_write_header` after it has written the header. -/
  keepsHeader : Bool
  log : List (MuxerEvent D n)

variable {D : Type} {n : Nat}

def Muxer.setStream (m : Muxer D n) (i : Fin n) (s : MuxerStream D) : Muxer D n :=
  { m with streams := Function.update m.streams i s }

def Muxer.event (m : Muxer D n) (e : MuxerEvent D n) : Muxer D n := { m with log := m.log ++ [e] }

/-! ## The container's functions -/

def muxerWriteHeader (m : Muxer D n) : Muxer D n :=
  if m.contWriteHeader then { m.event .header with contWriteHeader := m.keepsHeader } else m

def muxerWriteIndex (m : Muxer D n) : Muxer D n :=
  if m.contWriteIndex then m.event .index else m

/-- The loop that fixes the parameters of all streams. -/
def muxerFixStreams (m : Muxer D n) : Muxer D n :=
  if m.fixStreamParameters then { m with log := m.log ++ (List.finRange n).map .fix } else m

def contWriteChunk (m : Muxer D n) (i : Fin n) (len flags : Nat) (dts pts : D) : Muxer D n :=
  m.event (.chunk ⟨i, (m.streams i).buffer.take len, len, flags, dts, pts, (m.streams i).timer⟩)

/-! ## `muxer_flush` -/

/-- The loop that sends the buffered frames. -/
def muxerSendFrames : List (Muxbuf D n) → Muxer D n → Muxer D n
  | [], m => m
  | buf :: rest, m =>
    let timer := (m.streams buf.stream).timer
    let buffer := (m.streams buf.stream).buffer
    let m := m.setStream buf.stream
      { m.streams buf.stream with timer := buf.dts, buffer := buf.buffer }
    let m := contWriteChunk m buf.stream buf.len buf.flags buf.dts buf.pts
    let m := m.setStream buf.stream { m.streams buf.stream with timer := timer, buffer := buffer }
    muxerSendFrames rest m

/-- `muxer_flush`. -/
def muxerFlush (m : Muxer D n) : Muxer D n :=
  if m.muxbuf = [] then m
  else
    let m := muxerWriteHeader (muxerFixStreams m)
    { muxerSendFrames m.muxbuf m with muxbuf := [] }

/-! ## `muxer_write_chunk` -/

/-- The counters after a frame of this length. -/
def Counters.alter (clock : Clock D) (s : Counters D) (len : Nat) : Counters D :=
  let dwLength := if s.dwSampleSize ≠ 0
    then s.dwLength + UInt32.ofNat (len / s.dwSampleSize.toNat) else s.dwLength + 1
  { s with
    dwLength := dwLength
    timer := clock.time dwLength s.dwScale s.dwRate
    size := s.size + len }

/-- Which streams have had a frame that is not empty. -/
def Muxer.seen (m : Muxer D n) : Fin n → Bool := fun i => (m.streams i).muxbufSeen

/-- The frame is buffered, and its stream marked if the frame is not empty. -/
def muxerBufferFrame (m : Muxer D n) (i : Fin n) (len flags : Nat) (dts pts : D) : Muxer D n :=
  let buf : Muxbuf D n := ⟨i, dts, pts, (m.streams i).buffer.take len, len, flags⟩
  let m := { m with muxbuf := m.muxbuf ++ [buf] }
  if 0 < len then m.setStream i { m.streams i with muxbufSeen := true } else m

/-- The buffer is flushed if all streams are marked. -/
def muxerTryFlush (m : Muxer D n) : Muxer D n :=
  let m := { m with muxbufSkipBuffer := decide (∀ i, m.seen i) }
  if m.muxbufSkipBuffer then muxerFlush m else m

section Writing

variable [DecidableEq D] (clock : Clock D)

/-- A timestamp, or the timer where there is none. -/
def Clock.orTimer (timer t : D) : D := if t = clock.nopts then timer else t

def Muxer.alterCounters (m : Muxer D n) (i : Fin n) (len : Nat) : Muxer D n :=
  m.setStream i { m.streams i with toCounters := (m.streams i).alter clock len }

/-- `muxer_write_chunk`. -/
def muxerWriteChunk (m : Muxer D n) (i : Fin n) (len flags : Nat) (dts pts : D) : Muxer D n :=
  let dts := clock.orTimer (m.streams i).timer dts
  let pts := clock.orTimer (m.streams i).timer pts
  let m := if m.muxbufSkipBuffer then contWriteChunk m i len flags dts pts
    else muxerTryFlush (muxerBufferFrame m i len flags dts pts)
  m.alterCounters clock i len

/-- `muxer_close`. -/
def muxerClose (m : Muxer D n) : Muxer D n := muxerWriteHeader (muxerWriteIndex (muxerFlush m))

/-! ## Runs -/

/-- A call of `muxer_write_chunk`, with what the encoder left in the buffer of the stream. -/
structure Frame (D : Type) (n : Nat) where
  stream : Fin n
  buffer : List UInt8
  len : Nat
  fits : len ≤ buffer.length
  flags : Nat
  dts : D
  pts : D

def Muxer.send (m : Muxer D n) (f : Frame D n) : Muxer D n :=
  muxerWriteChunk clock (m.setStream f.stream { m.streams f.stream with buffer := f.buffer })
    f.stream f.len f.flags f.dts f.pts

/-- A whole run. -/
def Muxer.run (m : Muxer D n) (frames : List (Frame D n)) : Muxer D n :=
  muxerClose (frames.foldl (Muxer.send clock) m)

end Writing

/-- What `cont_write_chunk` was called with. -/
def MuxerEvent.chunk? : MuxerEvent D n → Option (Written D n)
  | .chunk w => some w
  | _ => none

def Muxer.chunks (m : Muxer D n) : List (Written D n) := m.log.filterMap MuxerEvent.chunk?

end MPlayer
