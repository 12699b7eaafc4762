import Mathlib.Data.List.Basic
import Mathlib.Algebra.Group.Int.Defs
import Mathlib.Algebra.Group.Nat.Defs

/-!
# The two readers of an AVI file

`demux_avi_fill_buffer` goes over the index once and delivers each chunk to the stream it belongs
to.  Behind the last entry it reads on in the file, chunk after chunk.  `demux_avi_fill_buffer_ni`
keeps one position in the index for each stream, passes over the chunks of the other streams, and
ends behind the last entry.  When the buffers of a stream are full the first reader gives up and
leaves the rest to the second one (`switch_to_ni`).

The file is seekable and has an index, and both streams were selected when the file was opened.
Nothing was skipped by a seek in the file's contents (`skip_video_frames`).  The time stamps, which
are floating point numbers, are left out.  The machine is little-endian, and what the stream holds
is the contents of the file: a read behind the last byte sets the end-of-file flag, and each byte it
misses is the -256 of `stream_read_char`.
-/

namespace MPlayer.AviDemux

/-- The streams of the demuxer that take packets. -/
inductive DS where
  | audio | video
  deriving DecidableEq

/-- `AVIINDEXENTRY`. -/
structure IndexEntry where
  ckid : UInt32
  dwFlags : UInt32
  dwChunkOffset : UInt32
  dwChunkLength : UInt32
  deriving DecidableEq

/-- An opened file: its bytes, its index, and the ids of the two selected streams. -/
structure AviFile where
  bytes : List UInt8
  idx : List IndexEntry
  idxOffset : Int
  moviStart : Int
  moviEnd : Int
  audioId : Int
  videoId : Int

/-- What is delivered to a stream.  `pos` is the number of the index entry. -/
structure Packet where
  buffer : List UInt8
  pos : Int
  flags : Bool
  deriving DecidableEq

def Packet.len (p : Packet) : Nat := p.buffer.length

/-- The header of a chunk, as the reader takes it, and the position behind it. -/
structure Chunk where
  id : UInt32
  len : UInt32
  flags : Bool
  pos : Nat
  deriving DecidableEq

/-- `ds->packs` and `ds->bytes` of a stream at a call. -/
structure Load where
  packs : Nat
  bytes : Nat

/-- The demuxer and its streams.  `pos` is the position in the file, `ni` is set when
`demux_avi_fill_buffer_ni` reads the file. -/
structure AviDemuxer where
  idxPos : Nat
  idxPosA : Nat
  idxPosV : Nat
  pos : Nat
  ni : Bool
  delivered : DS → List Packet

/-- The return values 0, 1 and -1. -/
inductive Return where
  | eof | packet | switched
  deriving DecidableEq

/-! ## Ids -/

def fourcc (a b c d : Char) : UInt32 :=
  UInt32.ofNat (a.toNat + 2 ^ 8 * b.toNat + 2 ^ 16 * c.toNat + 2 ^ 24 * d.toNat)

/-- `fcc[k]`. -/
def fcc (id : UInt32) (k : UInt32) : UInt8 := (id >>> (8 * k)).toUInt8

/-- `avi_stream_id`. -/
def streamId (id : UInt32) : Nat :=
  let a := (id - 48).toUInt8
  let b := ((id >>> 8) - 48).toUInt8
  if a > 9 ∨ b > 9 then 100 else a.toNat * 10 + b.toNat

/-- A character of `valid`, or the zero byte, which `strchr` finds too. -/
def ValidChar (c : UInt8) : Prop :=
  c = 0 ∨ 48 ≤ c ∧ c ≤ 57 ∨ 97 ≤ c ∧ c ≤ 122 ∨ 65 ≤ c ∧ c ≤ 90 ∨ c = 95

instance (c : UInt8) : Decidable (ValidChar c) :=
  inferInstanceAs (Decidable (c = 0 ∨ 48 ≤ c ∧ c ≤ 57 ∨ 97 ≤ c ∧ c ≤ 122 ∨ 65 ≤ c ∧ c ≤ 90 ∨
    c = 95))

def ValidFourcc (id : UInt32) : Prop :=
  ValidChar (fcc id 0) ∧ ValidChar (fcc id 1) ∧ ValidChar (fcc id 2) ∧ ValidChar (fcc id 3)

instance (id : UInt32) : Decidable (ValidFourcc id) :=
  inferInstanceAs (Decidable (_ ∧ _ ∧ _ ∧ _))

def ValidStreamId (id : UInt32) : Prop :=
  48 ≤ fcc id 0 ∧ fcc id 0 ≤ 57 ∧ 48 ≤ fcc id 1 ∧ fcc id 1 ≤ 57 ∧
    (fcc id 2 = 119 ∧ fcc id 3 = 98 ∨ fcc id 2 = 100 ∧ fcc id 3 = 99)

instance (id : UInt32) : Decidable (ValidStreamId id) :=
  inferInstanceAs (Decidable (_ ∧ _ ∧ _ ∧ _ ∧ (_ ∨ _)))

def chooseChunkLen (len1 len2 : UInt32) : UInt32 :=
  if len1 = 0 then
    if len2 > 0x80000 then len1 else len2
  else if len2 = 0 then
    if len1 > 0x100000 then len2 else len1
  else
    if len1 < len2 then len1 else len2

/-- The bytes of a chunk that `demux_avi_read_packet` passes over behind what it delivers,
`skip` in `int`. -/
def Chunk.skipLength (c : Chunk) (ds : Option DS) : Nat :=
  let skip := (c.len + 1) &&& ~~~1
  let skip := if ds.isSome then skip - c.len else skip
  let skip := if skip < 0x80000000 then skip.toNat else 0
  if streamId c.id > 99 ∧ c.id ≠ fourcc 'J' 'U' 'N' 'K' then min skip 65536 else skip

namespace IndexEntry

/-- `AVI_IDX_OFFSET`. -/
def offset (e : IndexEntry) : Nat :=
    (e.dwFlags &&& 0xffff0000).toNat * 2 ^ 16 + e.dwChunkOffset.toNat

/-- `AVIIF_LIST`, on an entry that does not look like an unaligned chunk. -/
def IsList (e : IndexEntry) : Prop := e.dwFlags &&& 1 ≠ 0 ∧ ¬ValidStreamId e.ckid

instance (e : IndexEntry) : Decidable e.IsList := inferInstanceAs (Decidable (_ ∧ ¬_))

/-- `AVIIF_KEYFRAME`. -/
def keyframe (e : IndexEntry) : Bool := decide (e.dwFlags &&& 0x10 ≠ 0)

end IndexEntry

namespace AviFile

variable (f : AviFile)

/-! ## Reading the file -/

/-- `stream_read_char` at a position. -/
def readChar (pos : Nat) : UInt32 :=
  match f.bytes[pos]? with
  | some b => b.toUInt32
  | none => 0xffffff00

/-- `stream_read_dword_le` at a position. -/
def readDword (pos : Nat) : UInt32 :=
  f.readChar pos ||| f.readChar (pos + 1) <<< 8 ||| f.readChar (pos + 2) <<< 16 |||
    f.readChar (pos + 3) <<< 24

/-- `stream_eof` after everything in front of a position was read. -/
def Eof (pos : Nat) : Prop := f.bytes.length < pos

instance (pos : Nat) : Decidable (f.Eof pos) := inferInstanceAs (Decidable (_ < _))

/-- `demux_avi_select_stream`. -/
def selectStream (id : UInt32) : Option DS :=
  if (streamId id : Int) = f.audioId then some .audio
  else if (streamId id : Int) = f.videoId then some .video
  else none

/-- The position an entry of the index gives. -/
def entryPos (e : IndexEntry) : Int := f.idxOffset + e.offset

def OutOfRange (pos : Int) : Prop :=
  (pos < f.moviStart ∨ pos ≥ f.moviEnd) ∧ f.moviEnd > f.moviStart

instance (pos : Int) : Decidable (f.OutOfRange pos) := inferInstanceAs (Decidable ((_ ∨ _) ∧ _))

/-- What the position of an entry leads to. -/
inductive Found where
  | eof
  | dropped (pos : Nat)
  | chunk (c : Chunk)
  deriving DecidableEq

/-- The header of a chunk that an entry of the index points to, which both readers check
against the entry. -/
def readHeader (e : IndexEntry) : Found :=
  let pos := (f.entryPos e).toNat
  let id := f.readDword pos
  let len := f.readDword (pos + 4)
  if f.Eof (pos + 4) then .eof
  -- neither id can be used
  else if id ≠ e.ckid ∧ ¬ValidFourcc e.ckid ∧ ¬ValidFourcc id then .dropped (pos + 4)
  else
    -- the id of the index if it is valid; where the two agree it does not matter which is taken
    let id := if ValidFourcc e.ckid then e.ckid else id
    if len ≠ e.dwChunkLength ∧ len + 1 ≠ e.dwChunkLength then
      -- both values bad
      if len > 0x200000 ∧ e.dwChunkLength > 0x200000 then .dropped (pos + 8)
      else .chunk ⟨id, chooseChunkLen e.dwChunkLength len, e.keyframe, pos + 8⟩
    else .chunk ⟨id, len, e.keyframe, pos + 8⟩

/-- What `ds_read_packet` reads.  There is no packet of a negative length. -/
def payload (c : Chunk) : Option (List UInt8) :=
  if c.len < 0x80000000 then some ((f.bytes.drop c.pos).take c.len.toNat) else none

end AviFile

namespace AviDemuxer

/-- `ds_add_packet`. -/
def deliver (s : AviDemuxer) (ds : DS) (p : Packet) : AviDemuxer :=
  { s with delivered := fun d => if d = ds then s.delivered d ++ [p] else s.delivered d }

/-- `demux_avi_read_packet`. -/
def readPacket (f : AviFile) (s : AviDemuxer) (ds : Option DS) (c : Chunk) (idxpos : Int) :
    AviDemuxer :=
  match ds with
  | none => { s with pos := c.pos + c.skipLength none }
  | some ds =>
    match f.payload c with
    | none => { s with pos := c.pos + c.skipLength (some ds) }
    | some data =>
      { s.deliver ds ⟨data, idxpos, c.flags⟩ with
        pos := c.pos + data.length + c.skipLength (some ds) }

/-- `switch_to_ni` of a file that has an index. -/
def switchToNi (s : AviDemuxer) : AviDemuxer :=
  { s with
    idxPos := s.idxPos - 1
    idxPosA := s.idxPos - 1
    idxPosV := s.idxPos - 1
    ni := true }

/-- The packet limits, for a stream that a chunk of the length `len` is about to be added to. -/
def Overflows (load : Load) (len : UInt32) : Prop :=
  load.packs + 1 ≥ 4096 ∨ (load.bytes + len.toNat) % 2 ^ 32 ≥ 0x2000000

instance (load : Load) (len : UInt32) : Decidable (Overflows load len) :=
  inferInstanceAs (Decidable (_ ∨ _))

/-! ## `demux_avi_fill_buffer` -/

/-- The end of a turn, which has found a chunk.  Without a return value there is another turn. -/
def endTurn (f : AviFile) (load : DS → Load) (s : AviDemuxer) (c : Chunk) :
    Option Return × AviDemuxer :=
  match f.selectStream c.id with
  | none => (none, s.readPacket f none c (s.idxPos - 1))
  | some ds =>
    if Overflows (load ds) c.len then (some .switched, s.switchToNi)
    else (some .packet, s.readPacket f (some ds) c (s.idxPos - 1))

/-- The resync loop of `avi_find_id`: the id and the position behind it. -/
def resync (f : AviFile) : Nat → Nat → UInt32 × Nat
  | 0, pos => (0, pos)
  | fuel + 1, pos =>
    let id := f.readDword pos
    if f.Eof (pos + 4) then (0, pos + 4)
    else if streamId id > 99 then resync f fuel (pos + 4)
    else (id, pos + 4)

/-- `avi_find_id`. -/
def findId (f : AviFile) (pos : Nat) : UInt32 × Nat :=
  let id := f.readDword pos
  if id = 0 then resync f (f.bytes.length + 1) (pos + 4) else (id, pos + 4)

/-- The turns behind the last entry of the index. -/
def fillBehind (f : AviFile) (load : DS → Load) : Nat → AviDemuxer → Return × AviDemuxer
  | 0, s => (.eof, s)
  | fuel + 1, s =>
    if (s.pos : Int) ≥ f.moviEnd ∧ f.moviEnd > f.moviStart then (.eof, s)
    else
      let (id, pos) := findId f s.pos
      let len := f.readDword pos
      if f.Eof (pos + 4) then (.eof, { s with pos := f.bytes.length })
      else if id = fourcc 'L' 'I' 'S' 'T' ∨ id = fourcc 'R' 'I' 'F' 'F' then
        fillBehind f load fuel { s with pos := pos + 8 }
      else
        match endTurn f load s ⟨id, len, true, pos + 4⟩ with
        | (none, s) => fillBehind f load fuel s
        | (some ret, s) => (ret, s)

/-- The turns on the entries of the index from `idx_pos` on, and those behind it. -/
def fillIndexed (f : AviFile) (load : DS → Load) :
    List IndexEntry → AviDemuxer → Return × AviDemuxer
  | [], s => fillBehind f load (f.bytes.length + 1) s
  | e :: es, s =>
    let s := { s with idxPos := s.idxPos + 1 }
    if e.IsList then fillIndexed f load es s
    else if f.selectStream e.ckid = none then fillIndexed f load es s
    else if f.OutOfRange (f.entryPos e) then fillIndexed f load es s
    else
      match f.readHeader e with
      | .eof => (.eof, { s with pos := f.bytes.length })
      | .dropped pos => fillIndexed f load es { s with pos := pos }
      | .chunk c =>
        match endTurn f load s c with
        | (none, s) => fillIndexed f load es s
        | (some ret, s) => (ret, s)

/-! ## `demux_avi_fill_buffer_ni` -/

/-- `idx_pos_a` or `idx_pos_v`. -/
def cursor (s : AviDemuxer) : DS → Nat
  | .audio => s.idxPosA
  | .video => s.idxPosV

def advance (s : AviDemuxer) : DS → AviDemuxer
  | .audio => { s with idxPosA := s.idxPosA + 1 }
  | .video => { s with idxPosV := s.idxPosV + 1 }

/-- The turns on the entries of the index from the position of the stream on. -/
def fillNi (f : AviFile) (ds : DS) : List IndexEntry → AviDemuxer → Return × AviDemuxer
  | [], s => (.eof, s.advance ds)
  | e :: es, s =>
    let idxPos := s.cursor ds
    let s := s.advance ds
    if e.IsList then fillNi f ds es s
    else if f.selectStream e.ckid ≠ some ds then fillNi f ds es s
    else if f.OutOfRange (f.entryPos e) then fillNi f ds es s
    else
      match f.readHeader e with
      | .eof => (.eof, { s with pos := f.bytes.length })
      | .dropped pos => fillNi f ds es { s with pos := pos }
      | .chunk c =>
        match f.selectStream c.id with
        | none => fillNi f ds es (s.readPacket f none c idxPos)
        | some d => (.packet, s.readPacket f (some d) c idxPos)

/-! ## Runs -/

/-- A call of `demux->desc->fill_buffer` for a stream, with what the streams have buffered
at that time. -/
structure Call where
  ds : DS
  load : DS → Load

/-- `demux_fill_buffer`. -/
def fillBuffer (f : AviFile) (s : AviDemuxer) (call : Call) : Return × AviDemuxer :=
  if s.ni then fillNi f call.ds (f.idx.drop (s.cursor call.ds)) s
  else fillIndexed f call.load (f.idx.drop s.idxPos) s

/-- The demuxer after a sequence of calls. -/
def run (f : AviFile) (s : AviDemuxer) (calls : List Call) : AviDemuxer :=
  calls.foldl (fun s call => (fillBuffer f s call).2) s

/-- The demuxer of an opened file, which `ni` decides to read with `demux_avi_fill_buffer_ni`. -/
def opened (f : AviFile) (ni : Bool) : AviDemuxer where
  idxPos := 0
  idxPosA := 0
  idxPosV := 0
  pos := f.moviStart.toNat
  ni := ni
  delivered := fun _ => []

end AviDemuxer

end MPlayer.AviDemux
