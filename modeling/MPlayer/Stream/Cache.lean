import MPlayer.Lib.Ring
import MPlayer.Stream.Basic

/-!
# The stream cache

`cache_vars_t` is a ring buffer between a filler, which reads the source, and a
reader.  It holds the source's bytes from `min_filepos` to `max_filepos`, and the
reader stands at `read_filepos`.  The byte of position `offset` is in the ring's
first cell, and `offset` moves on by the size of the ring when the filler passes
the ring's end.

The filler and the reader run at the same time.  `cache_fill` takes its decisions
first (`cacheFillStart`) and then blocks in `stream_read_internal` before it
stores what it read (`cacheFillFinish`).  The reader's loop in `cache_read` is
given by single iterations (`cacheReadStep`), and of `cache_stream_seek_long` the
step that moves the reader (`cacheReposition`).

The model leaves out stream controls, which a cache executes between two fills,
and the sleeping and warning of either side.
-/

namespace MPlayer

open Lib

/-- `cache_vars_t`. -/
structure CacheVars (β : Type) where
  buffer : Nat → UInt8
  bufferSize : Int
  sectorSize : Nat
  backSize : Int
  fillLimit : Int
  seekLimit : Int
  eof : Bool
  minFilepos : Int
  maxFilepos : Int
  offset : Int
  readFilepos : Int
  stream : Stream β

variable {β : Type}

/-! ## Opening -/

/-- `cache_init`, with the memory that `shared_alloc` returned. -/
def cacheInit (buffer : Nat → UInt8) (size sector : Nat) (stream : Stream β) : CacheVars β :=
  let num := max (size / sector) 16
  let bufferSize : Int := num * sector
  { buffer := buffer
    bufferSize := bufferSize
    sectorSize := sector
    backSize := bufferSize / 2
    fillLimit := 8 * sector
    seekLimit := 0
    eof := false
    minFilepos := 0
    maxFilepos := 0
    offset := 0
    readFilepos := 0
    stream := stream }

/-- The set-up in `stream_enable_cache`. -/
def streamEnableCache (buffer : Nat → UInt8) (size : Nat) (seekLimit : Int) (stream : Stream β) :
    CacheVars β :=
  let ss := if stream.sectorSize ≠ 0 then stream.sectorSize else streamBufferSize
  let s := cacheInit buffer size ss stream
  { s with seekLimit := min seekLimit (s.bufferSize - s.fillLimit) }

/-! ## The filler -/

/-- `cache_flush`. -/
def cacheFlush (s : CacheVars β) : CacheVars β :=
  { s with offset := s.readFilepos, minFilepos := s.readFilepos, maxFilepos := s.readFilepos }

/-- The first part of `cache_fill`: follow a reader that left the window, unless it
is only a little ahead. -/
def cacheFollow (ops : StreamOps β) (s : CacheVars β) : CacheVars β :=
  let read := s.readFilepos
  if read < s.minFilepos ∨ s.maxFilepos < read then
    if read < s.minFilepos ∨ s.maxFilepos + s.seekLimit ≤ read then
      let s := cacheFlush s
      let stream := if s.stream.eof then streamReset ops s.stream else s.stream
      { s with stream := (streamSeekInternal ops stream read).2 }
    else s
  else s

/-- The local variables of `cache_fill` when it reads. -/
structure CacheFill where
  pos : Int
  space : Int
  wraparoundCopy : Bool
deriving DecidableEq, Repr

/-- The number of bytes that `cache_fill` asks for, and whether it copies them
around the end of the ring. -/
def cacheSpace (s : CacheVars β) (pos space : Int) : Int × Bool :=
  let r : Int × Bool :=
    if s.bufferSize - pos < space then
      if s.sectorSize ≤ s.bufferSize - pos then (s.bufferSize - pos, false)
      else (s.sectorSize, true)
    else (space, false)
  let readChunk : Int :=
    if s.stream.readChunk = 0 then 4 * s.sectorSize else s.stream.readChunk
  (min r.1 readChunk, r.2)

/-- `cache_fill` up to its call of `stream_read_internal`, or `none` when the ring
is full. -/
def cacheFillStart (ops : StreamOps β) (s : CacheVars β) : Option CacheFill × CacheVars β :=
  let read := s.readFilepos
  let s := cacheFollow ops s
  let back := min (max (read - s.minFilepos) 0) s.backSize
  let newb := max (s.maxFilepos - read) 0
  let space := s.bufferSize - (newb + back)
  let pos := s.maxFilepos - s.offset
  let pos := if s.bufferSize ≤ pos then pos - s.bufferSize else pos
  if space < s.fillLimit then (none, s)
  else
    let r := cacheSpace s pos space
    let back2 := s.bufferSize - (r.1 + newb)
    (some ⟨pos, r.1, r.2⟩,
      { s with minFilepos := if s.minFilepos < read - back2 then read - back2 else s.minFilepos })

/-- `cache_fill` from its call of `stream_read_internal` on. -/
def cacheFillFinish (ops : StreamOps β) (fuel : Nat) (s : CacheVars β) (f : CacheFill) :
    Option (Int × CacheVars β) := do
  let r ← streamReadInternal ops fuel s.stream f.space.toNat
  let data := r.1
  let len : Int := data.length
  some (len,
    { s with
      buffer :=
        if f.wraparoundCopy then wrapBlit s.buffer s.bufferSize.toNat f.pos.toNat data
        else blit s.buffer f.pos.toNat data
      stream := if f.wraparoundCopy then { r.2 with buffer := blit r.2.buffer 0 data } else r.2
      eof := data.isEmpty
      maxFilepos := s.maxFilepos + len
      offset := if s.bufferSize ≤ f.pos + len then s.offset + s.bufferSize else s.offset })

/-- `cache_fill`. -/
def cacheFill (ops : StreamOps β) (fuel : Nat) (s : CacheVars β) : Option (Int × CacheVars β) :=
  match cacheFillStart ops s with
  | (none, s) => some (0, s)
  | (some f, s) => cacheFillFinish ops fuel s f

/-! ## The reader -/

/-- How an iteration of the loop in `cache_read` ends. -/
inductive CacheRead where
  | eof
  | interrupted
  | waiting
  | copied (bytes : List UInt8)
deriving DecidableEq, Repr

/-- An iteration of the loop in `cache_read` with `size` bytes still to read, where
`interrupt` is the result of `stream_check_interrupt`. -/
def cacheReadStep (s : CacheVars β) (size : Nat) (interrupt : Bool) : CacheRead × CacheVars β :=
  if s.maxFilepos ≤ s.readFilepos ∨ s.readFilepos < s.minFilepos then
    if s.eof then (.eof, s)
    else if interrupt then (.interrupted, { s with eof := true })
    else (.waiting, s)
  else
    let newb := s.maxFilepos - s.readFilepos
    let pos := s.readFilepos - s.offset
    let pos :=
      if pos < 0 then pos + s.bufferSize
      else if s.bufferSize ≤ pos then pos - s.bufferSize
      else pos
    let newb := min (min newb (s.bufferSize - pos)) size
    (.copied ((List.range newb.toNat).map fun i => s.buffer (pos.toNat + i)),
      { s with readFilepos := s.readFilepos + newb })

/-- The step of `cache_stream_seek_long` that moves the reader. -/
def cacheReposition (s : CacheVars β) (pos : Int) : CacheVars β :=
  { s with readFilepos := pos.tdiv s.sectorSize * s.sectorSize, eof := false }

end MPlayer
