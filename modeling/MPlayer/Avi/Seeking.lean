import MPlayer.Avi.Readers

/-!
# Seeking in an AVI file

`demux_seek_avi` looks for a keyframe in the index, and then for the chunk of the audio stream that
belongs to it.  The audio stream is measured in bytes if it has a constant rate, otherwise in
blocks.  An interleaved file is read on from the earlier one of the two chunks, and the video
frames in front of the keyframe are dropped.

The targets are computed with floating point numbers.  A seek takes the number of frames to go, and
the audio position that belongs to a number of video frames, as they come out of these
computations.
-/

namespace MPlayer.AviDemux

/-- What the headers of the audio stream say: whether `dwSampleSize` is set, and
`audio_block_size`, for which `update_audio_block_size` takes care that it is positive. -/
structure AudioHeader where
  constantRate : Bool
  blockSize : Nat
  blockSize_pos : 0 < blockSize
  blockSize_lt : blockSize < 2 ^ 31

/-- Where a seek leads to. -/
structure Target where
  absolute : Bool
  relSeekFrames : Int
  audioPos : Nat → Int

/-- `pack_no` and `dpos` of the audio stream, and `audio_block_no`. -/
structure AudioPosition where
  packNo : Int
  dpos : Int
  blockNo : Int
  deriving DecidableEq

/-- `audio_chunk_pos`, the position of the stream, and `skip_audio_bytes`. -/
structure AudioSeek where
  chunkPos : Nat
  position : AudioPosition
  skipBytes : Int
  deriving DecidableEq

/-- What a seek leaves behind. -/
structure Sought where
  videoChunkPos : Nat
  videoPackNo : Nat
  audio : Option AudioSeek
  skipVideoFrames : Nat
  idxPos : Nat
  idxPosA : Nat
  idxPosV : Nat
  deriving DecidableEq

namespace IndexEntry

/-- `dwChunkLength` in `int`. -/
def len (e : IndexEntry) : Int := Int.bmod e.dwChunkLength.toNat (2 ^ 32)

/-- `(len+priv->audio_block_size-1)/priv->audio_block_size` in `int`. -/
def blocks (size : Nat) (e : IndexEntry) : Int :=
  (Int.bmod (e.len + size - 1) (2 ^ 32)).tdiv size

end IndexEntry

namespace AudioPosition

def start : AudioPosition := ⟨0, 0, 0⟩

/-- The position behind a chunk of the audio stream. -/
def count (size : Nat) (p : AudioPosition) (e : IndexEntry) : AudioPosition where
  packNo := p.packNo + 1
  dpos := p.dpos + e.len
  blockNo := p.blockNo + e.blocks size

end AudioPosition

namespace AviFile

variable (f : AviFile)

def isAudio (e : IndexEntry) : Bool := decide ((streamId e.ckid : Int) = f.audioId)

def isVideo (e : IndexEntry) : Bool := decide ((streamId e.ckid : Int) = f.videoId)

/-- The entry `i` of the index is a chunk of the video stream. -/
def videoAt (i : Nat) : Bool := (f.idx[i]?).any f.isVideo

def keyframeAt (i : Nat) : Bool := (f.idx[i]?).any IndexEntry.keyframe

/-! ## The keyframe -/

/-- The search forward, with the number of entries it may go on. -/
def seekForward : Nat → Nat → Int → Nat
  | 0, pos, _ => pos
  | turns + 1, pos, rel =>
    if f.videoAt pos then
      if rel - 1 < 0 ∧ f.keyframeAt pos then pos else seekForward turns (pos + 1) (rel - 1)
    else seekForward turns (pos + 1) rel

/-- The search backward. -/
def seekBackward : Nat → Int → Nat
  | 0, _ => 0
  | pos + 1, rel =>
    if f.videoAt (pos + 1) then
      if rel + 1 > 0 ∧ f.keyframeAt (pos + 1) then pos + 1 else seekBackward pos (rel + 1)
    else seekBackward pos rel

/-- `video_chunk_pos`, from the position of the video stream. -/
def seekVideo (pos : Nat) (t : Target) : Nat :=
  let pos := if t.absolute then 0 else pos
  if t.relSeekFrames > 0 then f.seekForward (f.idx.length - 1 - pos) pos t.relSeekFrames
  else f.seekBackward pos t.relSeekFrames

/-! ## The audio chunk -/

/-- The search for a byte of a stream with a constant rate, from the entry `i` of the index on. -/
def seekConstant (size : Nat) (wanted : Int) :
    List IndexEntry → Nat → AudioPosition → Nat × AudioPosition
  | [], i, p => (i, p)
  | e :: es, i, p =>
    if f.isAudio e then
      if p.dpos ≤ wanted ∧ wanted < p.dpos + e.len then (i, p)
      else seekConstant size wanted es (i + 1) (p.count size e)
    else seekConstant size wanted es (i + 1) p

/-- The search for a block of a stream with a variable rate, from the entry `i` of the
index on. -/
def seekVariable (size chunkMax : Nat) : List IndexEntry → Nat → Int → AudioSeek → AudioSeek
  | [], _, _, a => a
  | e :: es, i, chunks, a =>
    if chunks ≤ 0 then a
    else if f.isAudio e then
      let chunks := Int.bmod (chunks - e.blocks size) (2 ^ 32)
      if i > chunkMax then
        seekVariable size chunkMax es (i + 1) chunks
          { a with skipBytes := Int.bmod (a.skipBytes + e.len) (2 ^ 32) }
      else
        seekVariable size chunkMax es (i + 1) chunks
          { a with chunkPos := i, position := a.position.count size e }
    else seekVariable size chunkMax es (i + 1) chunks a

/-- The search for `wanted` in the audio stream. -/
def seekAudio (h : AudioHeader) (chunkMax : Nat) (wanted : Int) : AudioSeek :=
  if h.constantRate then
    let r := f.seekConstant h.blockSize wanted (f.idx.take chunkMax) 0 .start
    ⟨r.1, r.2, Int.bmod (wanted - r.2.dpos) (2 ^ 32)⟩
  else f.seekVariable h.blockSize chunkMax f.idx 0 wanted ⟨0, .start, 0⟩

/-- The number of video chunks from one position in the index to another one. -/
def videoChunks (a b : Nat) : Nat := ((f.idx.take b).drop a).countP f.isVideo

/-- `demux_seek_avi` in front of its last call, for a demuxer of the type
`DEMUXER_TYPE_AVI_NI` if `ni` is set. -/
def seek (ni : Bool) (audio : Option AudioHeader) (pos : Nat) (t : Target) : Sought :=
  let v := f.seekVideo pos t
  let packNo := f.videoChunks 0 v
  match audio with
  | none => ⟨v, packNo, none, 0, v, v, v⟩
  | some h =>
    let a := f.seekAudio h (if ni then f.idx.length else v) (t.audioPos packNo)
    if ni then ⟨v, packNo, some a, 0, min a.chunkPos v, a.chunkPos, v⟩
    else if a.chunkPos < v then
      ⟨v, packNo, some a, f.videoChunks a.chunkPos v, a.chunkPos, a.chunkPos, a.chunkPos⟩
    else ⟨v, packNo, some a, 0, v, v, v⟩

end AviFile

end MPlayer.AviDemux
