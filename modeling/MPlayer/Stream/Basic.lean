import MPlayer.Lib.Memory

/-!
# The buffered stream

`stream_t` is a window of `buffer` over a byte source.  `bufLen` bytes of the
buffer are valid, `bufPos` of them have been read, and `pos` is the source
position of the first byte after the window.  So the reader stands at
`pos + bufPos - bufLen` (`streamTell`).

The source is a set of callbacks (`StreamOps`) over a private state `β`.  A
callback is any function of the stream, so it may also change the stream's
fields.  A read callback returns the bytes it delivered.  The empty list stands
for a result that is zero or negative, since the code tests no more than that.

Reading retries after an error, and every loop here runs until the source gives
up.  So the functions that read take fuel and return `none` when it runs out.

The model leaves out the capture stream, the URL, the descriptors and the
callbacks for writing and closing, which no function here depends on.
-/

namespace MPlayer

open Lib

/-! ## Data -/

/-- `STREAMTYPE_*`. -/
inductive StreamType where
  | dummy | file | vcd | stream | dvd | memory | playlist | ds | dvdnav | cdda | smb | bincue
  | dvb | vstream | sdp | pvr | tv | mf | radio | bluray | bd
deriving DecidableEq, Repr

/-- `STREAM_READ` and `STREAM_WRITE`. -/
inductive StreamMode where
  | read
  | write
deriving DecidableEq, Repr

/-- `STREAM_BUFFER_MIN`. -/
def streamBufferMin : Nat := 2048

/-- `STREAM_BUFFER_SIZE`. -/
def streamBufferSize : Nat := 2 * streamBufferMin

/-- `stream_t`. -/
structure Stream (β : Type) where
  type : StreamType
  /-- `flags & MP_STREAM_SEEK_FW`. -/
  seekFw : Bool
  /-- Seeks are aligned to this size if it is not zero. -/
  sectorSize : Nat
  /-- The most to read at once, zero for the default. -/
  readChunk : Nat
  bufPos : Nat
  bufLen : Nat
  pos : Int
  endPos : Int
  eof : Bool
  mode : StreamMode
  buffer : Nat → UInt8
  /-- The private data of the source. -/
  priv : β

/-- The callbacks of a stream. -/
structure StreamOps (β : Type) where
  /-- `CONFIG_NETWORKING`. -/
  configNetworking : Bool
  fillBuffer : Option (Stream β → Nat → List UInt8 × Stream β)
  /-- `read` on the descriptor. -/
  readFd : Stream β → Nat → List UInt8 × Stream β
  /-- `demux_read_data` on the demuxer stream behind `priv`. -/
  demuxReadData : Stream β → Nat → List UInt8 × Stream β
  seek : Option (Stream β → Int → Bool × Stream β)
  /-- `control` with `STREAM_CTRL_RESET`. -/
  controlReset : Option (Stream β → Stream β)
  streamingRead : Option (Stream β → Nat → List UInt8 × Stream β)
  /-- `streaming_ctrl->status == streaming_stopped_e`. -/
  streamingStopped : Stream β → Bool
  streamingSeek : Option (Stream β → Int → Int × Stream β)

variable {β : Type}

/-! ## Reading from the source -/

/-- The call of the `control` callback in `stream_reset`. -/
def callReset (ops : StreamOps β) (s : Stream β) : Stream β :=
  match ops.controlReset with
  | some control => control s
  | none => s

/-- `stream_reset`. -/
def streamReset (ops : StreamOps β) (s : Stream β) : Stream β :=
  callReset ops (if s.eof then { s with bufPos := 0, bufLen := 0, eof := false } else s)

/-- The call of the `seek` callback in `stream_seek_internal`. -/
def callSeek (seek : Stream β → Int → Bool × Stream β) (s : Stream β) (newpos : Int) :
    Int × Stream β :=
  let r := seek s newpos
  (if r.1 then -1 else 0, r.2)

/-- `stream_seek_internal`: `-1` for success, `0` for a failed seek and `1` for a
stream that cannot seek there. -/
def streamSeekInternal (ops : StreamOps β) (s : Stream β) (newpos : Int) : Int × Stream β :=
  if newpos = 0 ∨ newpos ≠ s.pos then
    if s.type = .stream then
      match ops.configNetworking, ops.seek, ops.streamingSeek with
      | true, some seek, _ => callSeek seek s newpos
      | true, none, some seek =>
        let r := seek s newpos
        (if r.1 < 0 then 1 else -1, r.2)
      | _, _, _ => (if newpos < s.pos then 1 else -1, s)
    else
      match ops.seek with
      | some seek => callSeek seek s newpos
      | none => (0, s)
  else (-1, s)

/-- The retry loop of `stream_reconnect`, with the retries left. -/
def streamReconnectLoop (ops : StreamOps β) (pos : Int) : Nat → Stream β → Bool × Stream β
  | 0, s => (false, s)
  | retries + 1, s =>
    let r := streamSeekInternal ops (streamReset ops { s with eof := true }) pos
    if 0 ≤ r.1 ∨ r.2.pos ≠ pos then streamReconnectLoop ops pos retries r.2 else (true, r.2)

/-- `MAX_RECONNECT_RETRIES`. -/
def maxReconnectRetries : Nat := 5

/-- `stream_reconnect`. -/
def streamReconnect (ops : StreamOps β) (s : Stream β) : Bool × Stream β :=
  streamReconnectLoop ops s.pos maxReconnectRetries s

/-- The `switch` of `stream_read_internal`: the read callback for the type. -/
def streamReadCallback (ops : StreamOps β) (s : Stream β) (len : Nat) : List UInt8 × Stream β :=
  match s.type with
  | .stream =>
    match ops.configNetworking, ops.streamingRead, ops.fillBuffer with
    | true, some read, _ =>
      let r := read s len
      if ops.streamingStopped r.2 ∧ (r.2.endPos = 0 ∨ r.2.pos = r.2.endPos) then
        (r.1, { r.2 with eof := true })
      else r
    | _, _, some fill => fill s len
    | _, _, none => ops.readFd s len
  | .ds => ops.demuxReadData s len
  | _ =>
    match ops.fillBuffer with
    | some fill => fill s len
    | none => ([], s)

/-- `stream_read_internal`.  The caller copies the returned bytes to its `buf`. -/
def streamReadInternal (ops : StreamOps β) : Nat → Stream β → Nat → Option (List UInt8 × Stream β)
  | 0, _, _ => none
  | fuel + 1, s, len =>
    let r := streamReadCallback ops s len
    let data := r.1
    let s := r.2
    if data = [] then
      if s.eof ∨ (s.endPos ≠ 0 ∧ s.pos = s.endPos) ∨ s.type = .dvdnav then
        some ([], { s with eof := true })
      else
        let r := streamReconnect ops s
        if r.1 then streamReadInternal ops fuel { r.2 with eof := true } len
        else some ([], { r.2 with eof := true })
    else some (data, { s with eof := false, pos := s.pos + data.length })

/-! ## The buffer -/

/-- The loop of `stream_fill_buffer` that reads up to `STREAM_BUFFER_MIN` bytes. -/
def streamTopUp (ops : StreamOps β) : Nat → Stream β → Option (Stream β)
  | 0, _ => none
  | fuel + 1, s =>
    if s.bufLen < streamBufferMin then do
      let r ← streamReadInternal ops fuel s streamBufferMin
      let s := { r.2 with buffer := blit r.2.buffer s.bufLen r.1 }
      if r.1 = [] then some s
      else streamTopUp ops fuel { s with bufLen := s.bufLen + r.1.length }
    else some s

/-- `stream_fill_buffer`. -/
def streamFillBuffer (ops : StreamOps β) (fuel : Nat) (s : Stream β) : Option (Nat × Stream β) := do
  let r ← streamReadInternal ops fuel s streamBufferSize
  let s := { r.2 with buffer := blit r.2.buffer 0 r.1 }
  if r.1 = [] then some (0, s)
  else
    let s ← streamTopUp ops fuel { s with bufPos := 0, bufLen := r.1.length }
    some (s.bufLen, { s with eof := false })

/-- `stream_tell`. -/
def streamTell (s : Stream β) : Int := s.pos + s.bufPos - s.bufLen

/-- The start of an iteration of `stream_read` and of `stream_skip`: refill an
empty window, then give the number `x` of unread bytes, or `none` at the end. -/
def streamWindow (ops : StreamOps β) (fuel : Nat) (s : Stream β) :
    Option (Option Int × Stream β) :=
  if (s.bufLen : Int) - s.bufPos = 0 then do
    let r ← streamFillBuffer ops fuel s
    if r.1 = 0 then some (none, r.2) else some (some (r.2.bufLen - r.2.bufPos), r.2)
  else some (some (s.bufLen - s.bufPos), s)

/-- The next `x` bytes of the window. -/
def streamBytes (s : Stream β) (x : Nat) : List UInt8 :=
  (List.range x).map fun i => s.buffer (s.bufPos + i)

/-- The loop of `stream_read`: the bytes copied to `mem`, and whether the end
was met. -/
def streamReadLoop (ops : StreamOps β) :
    Nat → Stream β → Int → Option (List UInt8 × Bool × Stream β)
  | 0, _, _ => none
  | fuel + 1, s, len =>
    if 0 < len then do
      let w ← streamWindow ops fuel s
      match w.1 with
      | none => some ([], true, w.2)
      | some x =>
        let x := min x len
        let r ← streamReadLoop ops fuel
          { w.2 with bufPos := ((w.2.bufPos : Int) + x).toNat } (len - x)
        some (streamBytes w.2 x.toNat ++ r.1, r.2)
    else some ([], false, s)

/-- `stream_read`: the result, the bytes copied and the stream. -/
def streamRead (ops : StreamOps β) (fuel : Nat) (s : Stream β) (total : Int) :
    Option (Int × List UInt8 × Stream β) := do
  let r ← streamReadLoop ops fuel s total
  some (if r.2.1 then r.1.length else total, r.1, r.2.2)

/-- `stream_read_char`: the byte, or `-256` at the end. -/
def streamReadChar (ops : StreamOps β) (fuel : Nat) (s : Stream β) : Option (Int × Stream β) :=
  if s.bufPos < s.bufLen then
    some ((s.buffer s.bufPos).toNat, { s with bufPos := s.bufPos + 1 })
  else do
    let r ← streamFillBuffer ops fuel s
    if r.1 = 0 then some (-256, r.2)
    else some ((r.2.buffer r.2.bufPos).toNat, { r.2 with bufPos := r.2.bufPos + 1 })

/-! ## Seeking -/

/-- The loop of `stream_seek_long` that reads on to `newpos`. -/
def streamReadTo (ops : StreamOps β) (newpos : Int) : Nat → Stream β → Option (Stream β)
  | 0, _ => none
  | fuel + 1, s =>
    if s.pos < newpos then do
      let r ← streamFillBuffer ops fuel s
      if r.1 = 0 then some r.2 else streamReadTo ops newpos fuel r.2
    else some s

/-- The loop of `stream_seek_long` that looks for the window with `pos`. -/
def streamFindPos (ops : StreamOps β) : Nat → Stream β → Int → Option (Int × Stream β)
  | 0, _, _ => none
  | fuel + 1, s, pos => do
      let r ← streamFillBuffer ops fuel s
      if 0 < r.1 ∧ 0 ≤ pos then
        if pos ≤ r.2.bufLen then some (1, { r.2 with bufPos := pos.toNat })
        else streamFindPos ops fuel r.2 (pos - r.2.bufLen)
      else some (0, r.2)

/-- The position `stream_seek_long` asks the source for. -/
def streamAlign (s : Stream β) (pos : Int) : Int :=
  if s.sectorSize ≠ 0 then pos.tdiv s.sectorSize * s.sectorSize
  else pos / streamBufferSize * streamBufferSize

/-- `stream_seek_long`. -/
def streamSeekLong (ops : StreamOps β) (fuel : Nat) (s : Stream β) (pos : Int) :
    Option (Int × Stream β) :=
  let s := { s with bufPos := 0, bufLen := 0 }
  if s.mode = .write then
    match ops.seek with
    | some seek =>
      let r := seek s pos
      some (if r.1 then 1 else 0, r.2)
    | none => some (0, s)
  else
    let newpos := streamAlign s pos
    let r := streamSeekInternal ops s newpos
    if 0 ≤ r.1 then some r
    else do
      let s ← streamReadTo ops newpos fuel r.2
      streamFindPos ops fuel s (pos - newpos)

/-- `stream_seek`. -/
def streamSeek (ops : StreamOps β) (fuel : Nat) (s : Stream β) (pos : Int) :
    Option (Int × Stream β) :=
  let pos := if pos < 0 then 0 else pos
  if s.bufLen = 0 ∧ s.pos = pos then some (1, s)
  else if pos < s.pos ∧ 0 ≤ pos - (s.pos - s.bufLen) then
    some (1, { s with bufPos := (pos - (s.pos - s.bufLen)).toNat })
  else streamSeekLong ops fuel s pos

/-- The loop of `stream_skip`. -/
def streamSkipLoop (ops : StreamOps β) : Nat → Stream β → Int → Option (Int × Stream β)
  | 0, _, _ => none
  | fuel + 1, s, len =>
    if 0 < len then do
      let w ← streamWindow ops fuel s
      match w.1 with
      | none => some (0, w.2)
      | some x =>
        let x := min x len
        streamSkipLoop ops fuel
          { w.2 with bufPos := ((w.2.bufPos : Int) + x).toNat } (len - x)
    else some (1, s)

/-- `stream_skip`.  The sum that it seeks to is an `int64_t`. -/
def streamSkip (ops : StreamOps β) (fuel : Nat) (s : Stream β) (len : Int) :
    Option (Int × Stream β) :=
  if len < 0 ∨ (2 * (streamBufferSize : Int) < len ∧ s.seekFw) then
    streamSeek ops fuel s (Int.bmod (streamTell s + len) 0x10000000000000000)
  else streamSkipLoop ops fuel s len

end MPlayer
