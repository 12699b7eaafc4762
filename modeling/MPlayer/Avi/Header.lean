import MPlayer.Lib.Halting
import MPlayer.Muxer.AviHeader
import MPlayer.Stream.Reader

/-!
# The header of an AVI file as it is read

`read_avi_header` goes from chunk to chunk until the end of the file, or to the movi list if
nothing behind it is wanted.  A strh chunk creates the header of a stream, and a strf chunk belongs
to the strh chunk read last, whose type is kept in static variables.  A chunk that reaches over the
end of its list is left for that end, which may be a seek backward.

What a file that was opened earlier leaves behind (`History`) is these two variables and the
contents of memory that is used before it is initialised.  The headers of the streams are known by
what is written into them, in this order.  The floating point numbers that are computed from a
header, and the entries of the index, are left out.  Numbers of the file are read as on a
little endian machine, where they need no swap.

Behind the headers the index may be built from the standard indices that the super indices lead to
(`Parser.odml`), or from the chunks of the movi list (`indexTurn`).  Neither touches a stream
header, but the first one needs memory for as many entries as the file says there are.  A call of
`malloc` or `calloc` fails for a negative size only.
-/

namespace MPlayer

open Lib

/-- `stream_read_dword_le`. -/
def Reader.dwordLe (r : Reader) : UInt32 × Reader :=
  let (a, r) := r.readChar
  let (b, r) := r.readChar
  let (c, r) := r.readChar
  let (d, r) := r.readChar
  (UInt32.ofInt a ||| UInt32.ofInt b <<< 8 ||| UInt32.ofInt c <<< 16 ||| UInt32.ofInt d <<< 24, r)

/-- `stream_read_qword_le`. -/
def Reader.qwordLe (r : Reader) : UInt64 :=
  r.dwordLe.1.toUInt64 ||| r.dwordLe.2.dwordLe.1.toUInt64 <<< 32

/-- `stream_read` with a length that is passed in an `int`. -/
def Reader.readInt (r : Reader) (n : Nat) : List UInt8 × Reader :=
  if n < 2 ^ 31 then r.read n else ([], r)

namespace AviHeader

open AviMuxer (fourcc le32)

/-! ## Bytes -/

/-- 16 bits of a structure that was read. -/
def wordAt (b : List UInt8) (i : Nat) : Nat := (b.getD i 0).toNat + (b.getD (i + 1) 0).toNat * 2 ^ 8

/-- 32 bits of a structure that was read. -/
def dwordAt (b : List UInt8) (i : Nat) : UInt32 :=
  UInt32.ofNat (wordAt b i + wordAt b (i + 2) * 2 ^ 16)

/-- A structure of this size of which only the first bytes were read. -/
def filled (rest : Nat → UInt8) (size : Nat) (b : List UInt8) : List UInt8 :=
  (List.range size).map fun i => b.getD i (rest i)

/-! ## The chunks -/

/-- The chunks that `read_avi_header` knows.  The chunks of an INFO list are one. -/
inductive Ckid where
  | info
  | avih
  | strh
  | indx
  | strf
  | vprp
  | dmlh
  | idx1
  | riff
  | junk
  | other
  deriving DecidableEq

/-- The chunks for which `hdr` is set. -/
def infoIds : List UInt32 :=
  [fourcc 'I' 'A' 'R' 'L', fourcc 'I' 'A' 'R' 'T', fourcc 'I' 'C' 'M' 'S', fourcc 'I' 'C' 'M' 'T',
    fourcc 'I' 'C' 'O' 'P', fourcc 'I' 'C' 'R' 'D', fourcc 'I' 'C' 'R' 'P', fourcc 'I' 'D' 'I' 'M',
    fourcc 'I' 'D' 'P' 'I', fourcc 'I' 'E' 'N' 'G', fourcc 'I' 'G' 'N' 'R', fourcc 'I' 'K' 'E' 'Y',
    fourcc 'I' 'L' 'G' 'T', fourcc 'I' 'M' 'E' 'D', fourcc 'I' 'N' 'A' 'M', fourcc 'I' 'P' 'L' 'T',
    fourcc 'I' 'P' 'R' 'D', fourcc 'I' 'S' 'B' 'J', fourcc 'I' 'S' 'F' 'T', fourcc 'I' 'S' 'H' 'P',
    fourcc 'I' 'S' 'R' 'C', fourcc 'I' 'S' 'R' 'F', fourcc 'I' 'T' 'C' 'H', fourcc 'I' 'S' 'M' 'P',
    fourcc 'I' 'D' 'I' 'T']

/-- The chunk with this id. -/
def ckid (id : UInt32) : Ckid :=
  if id ∈ infoIds then .info
  else if id = fourcc 'a' 'v' 'i' 'h' then .avih
  else if id = fourcc 's' 't' 'r' 'h' then .strh
  else if id = fourcc 'i' 'n' 'd' 'x' then .indx
  else if id = fourcc 's' 't' 'r' 'f' then .strf
  else if id = fourcc 'v' 'p' 'r' 'p' then .vprp
  else if id = fourcc 'd' 'm' 'l' 'h' then .dmlh
  else if id = fourcc 'i' 'd' 'x' '1' then .idx1
  else if id = fourcc 'R' 'I' 'F' 'F' then .riff
  else if id = fourcc 'J' 'U' 'N' 'K' then .junk
  else .other

def streamtypeVIDEO : UInt32 := fourcc 'v' 'i' 'd' 's'

def streamtypeAUDIO : UInt32 := fourcc 'a' 'u' 'd' 's'

def listtypeAVIMOVIE : UInt32 := fourcc 'm' 'o' 'v' 'i'

/-- `MAX_V_STREAMS` and `MAX_A_STREAMS`. -/
def maxStreams : Nat := 256

/-- The size of `AVIStreamHeader`, and of `MainAVIHeader`. -/
def streamHeaderSize : UInt32 := 56

/-! ## What is written into the stream headers -/

/-- The format of a video stream: `bih_size`, the bytes read into `bih`, the fields that are
changed, and whether the picture is flipped. -/
structure BitmapInfo where
  size : Nat
  bytes : List UInt8
  biSize : UInt32
  biHeight : Int
  biCompression : UInt32
  flipped : Bool
  deriving DecidableEq

/-- The format of an audio stream. -/
structure WaveFormat where
  bytes : List UInt8
  format : UInt32
  deriving DecidableEq

/-- A write into the header of the stream with this id. -/
inductive Write where
  | video (id : Nat) (h : List UInt8)
  | audio (id : Nat) (h : List UInt8)
  | bih (id : Nat) (bih : BitmapInfo)
  | wf (id : Nat) (wf : WaveFormat)
  | aspect (id : Nat) (ratio : UInt32)
  deriving DecidableEq

/-- An access to a stream header that doesn't exist, to a field description behind the memory of
the chunk, to memory that was not given, or to a super index behind the last one. -/
inductive Fault where
  | noHeader
  | pastFields
  | noMemory
  | pastIndex
  deriving DecidableEq

/-- `bih`, for which this many bytes were wanted. -/
def bitmapInfo (chunksize : UInt32) (b : List UInt8) : BitmapInfo :=
  let biSize := dwordAt b 0
  let biSize := if biSize > chunksize ∧ biSize > 40 then chunksize else biSize
  let biHeight := (dwordAt b 8).toInt32.toInt
  let biCompression := dwordAt b 16
  { size := max chunksize.toNat 40
    bytes := b
    biSize := if biCompression.toInt32 ≤ 1 ∧ biSize = 40 then chunksize else biSize
    biHeight := biHeight.natAbs
    biCompression := biCompression
    flipped := decide (biCompression = 0 ∧ biHeight > 0) }

/-- `wf` and `format`.  `calloc` clears the first `wf_size` bytes, `realloc` adds bytes that nobody
clears. -/
def waveFormat (heap : Nat → UInt8) (fccHandler chunksize : UInt32) (b : List UInt8) :
    WaveFormat :=
  let wfSize := max chunksize.toNat 18
  let cbSize := wordAt b 16
  let size := if cbSize ≠ 0 ∧ wfSize < 18 + cbSize then 18 + cbSize else wfSize
  let wf := filled (fun i => if i < wfSize then 0 else heap i) size b
  let format := if wordAt b 0 = 0xfffe ∧ cbSize ≥ 22 then dwordAt wf 24
    else UInt32.ofNat (wordAt b 0)
  let format := if format = 1 ∧ fccHandler = fourcc 'A' 'x' 'a' 'n' then fccHandler else format
  { bytes := wf
    format := if format = 0x11 ∧ wordAt b 14 = 8 then 0x116b727a else format }

/-! ## The parser -/

/-- `last_fccType` and `last_fccHandler`. -/
structure Last where
  fccType : UInt32
  fccHandler : UInt32
  deriving DecidableEq

/-- What the files opened earlier leave behind: the static variables, the stack under the header of
a strh chunk, by the number of the chunk, and the bytes behind `wf`, by the number of writes into
the stream headers. -/
structure History where
  last : Last
  stack : Nat → Nat → UInt8
  heap : Nat → Nat → UInt8

/-- The other variables of `read_avi_header`.  `streams` is `stream_id + 1`, and `shVideo` and
`shAudio` are the ids of the headers they point to.  `suidx` has the offsets in each of the super
indices. -/
structure Parser where
  r : Reader
  listEnd : Nat
  streams : Nat
  shVideo : Option Nat
  shAudio : Option Nat
  suidx : List (List UInt64)
  isodml : Bool
  idxSize : Nat
  written : List Write
  indexed : isodml = true → suidx ≠ []

/-- The file, `index_mode` and whether `index_file_save` is set.  A seek inside of the buffer of
the stream doesn't clear `eof`, and where this is the case is told by `keepsEof`.  The seeks to a
standard index that fail are told by `seekFails`. -/
structure Opened where
  file : List UInt8
  indexMode : Int
  indexFileSave : Bool
  keepsEof : Nat → Bool
  seekFails : Nat → Bool

namespace Opened

variable (o : Opened)

/-- `index_mode` in the loop. -/
def mode : Int := if o.indexFileSave then 2 else o.indexMode

/-- `stream_seek`. -/
def seek (r : Reader) (pos : Nat) : Reader := ⟨pos, o.file.drop pos, r.eof && o.keepsEof pos⟩

end Opened

namespace Parser

variable (p : Parser)

/-- A chunk of an INFO list. -/
def info (size2 chunksize : UInt32) : Parser × UInt32 :=
  -- an empty one is not read, and left two bytes too early
  if size2 = 3 then (p, 1)
  else
    let len := min size2 250
    ({ p with r := p.r.skip len.toNat }, chunksize - len)

/-- avih. -/
def mainHeader (size2 chunksize : UInt32) : Parser × UInt32 :=
  let n := min size2 streamHeaderSize
  ({ p with r := p.r.skip n.toNat }, chunksize - n)

/-- The offsets in the entries of a super index, of which each is 16 bytes. -/
def qwOffsets (r : Reader) (n : Nat) : List UInt64 :=
  (List.range n).map fun i => (r.skip (16 * i)).qwordLe

/-- indx. -/
def superIndex (mode : Int) (chunksize : UInt32) : Parser × UInt32 :=
  if mode = 0 ∨ chunksize ≤ 24 then (p, chunksize)
  else
    let chunksize := chunksize - 24
    -- `wLongsPerEntry`, `bIndexSubType` and `bIndexType`
    let (nEntriesInUse, r) := (p.r.skip 4).dwordLe
    let n := min nEntriesInUse (chunksize / 4 / 4)
    -- `dwChunkId` and `dwReserved`
    let r := r.skip 16
    ({ p with
        r := r.skip (16 * n.toNat)
        suidx := p.suidx ++ [qwOffsets r n.toNat]
        indexed := fun _ => List.append_ne_nil_of_right_ne_nil _ (List.cons_ne_nil _ _) },
      chunksize - 16 * n)

/-- dmlh. -/
def extendedHeader (chunksize : UInt32) : Parser × UInt32 :=
  ({ p with r := p.r.dwordLe.2.skip (chunksize - 4).toNat }, 0)

/-- idx1. -/
def index (mode : Int) (size2 chunksize : UInt32) : Parser × UInt32 :=
  if mode = 0 ∨ p.isodml then (p, chunksize)
  else
    let (b, r) := p.r.readInt ((size2 >>> 4) <<< 4).toNat
    ({ p with r := r, idxSize := b.length / 16 }, chunksize - UInt32.ofNat (b.length / 16 * 16))

/-- RIFF.  Behind a type that is cut short no chunk is read. -/
def riff : Parser × UInt32 :=
  let (type, r) := p.r.read 4
  let isodml := p.isodml || decide (type = le32 (fourcc 'A' 'V' 'I' 'X') ∧ p.suidx ≠ [])
  ({ p with
      r := r
      isodml := isodml
      listEnd := 0
      indexed := fun h => ((Bool.or_eq_true _ _).mp h).elim p.indexed
        fun hx => (of_decide_eq_true hx).2 }, 0)

/-- A chunk that is not about one of the streams, and what is left of its size. -/
def plain (mode : Int) (size2 chunksize : UInt32) : Ckid → Parser × UInt32
  | .info => p.info size2 chunksize
  | .avih => p.mainHeader size2 chunksize
  | .indx => p.superIndex mode chunksize
  | .dmlh => p.extendedHeader chunksize
  | .idx1 => p.index mode size2 chunksize
  | .riff => p.riff
  | .junk => ({ p with r := p.r.skip chunksize.toNat }, 0)
  | _ => (p, chunksize)

/-- The header of a strh chunk. -/
def headerBytes (h : History) (size2 : UInt32) : List UInt8 :=
  filled (h.stack p.streams) 56 (p.r.read (min size2 streamHeaderSize).toNat).1

/-- strh.  For an id that is too large `new_sh_video` and `new_sh_audio` give no header. -/
def streamHeader (h : History) (size2 : UInt32) : Except Fault (Parser × Last) :=
  let bytes := p.headerBytes h size2
  let last : Last := ⟨dwordAt bytes 0, dwordAt bytes 4⟩
  let q := { p with
    r := p.r.skip (min size2 streamHeaderSize).toNat
    streams := p.streams + 1 }
  if last.fccType = streamtypeVIDEO then
    if p.streams < maxStreams then
      .ok ({ q with
        shVideo := some p.streams
        written := p.written ++ [.video p.streams bytes] }, last)
    else .error .noHeader
  else if last.fccType = streamtypeAUDIO then
    if p.streams < maxStreams then
      .ok ({ q with
        shAudio := some p.streams
        written := p.written ++ [.audio p.streams bytes] }, last)
    else .error .noHeader
  else .ok (q, last)

/-- strf.  `bih_size` is an `int`. -/
def streamFormat (h : History) (last : Last) (chunksize : UInt32) :
    Except Fault (Parser × UInt32) :=
  let (b, r) := p.r.readInt chunksize.toNat
  if last.fccType = streamtypeVIDEO then
    match p.shVideo with
    | none => .error .noHeader
    | some id =>
      if chunksize.toNat < 2 ^ 31 then
        .ok ({ p with r := r, written := p.written ++ [.bih id (bitmapInfo chunksize b)] }, 0)
      else .error .noMemory
  else if last.fccType = streamtypeAUDIO then
    match p.shAudio with
    | none => .error .noHeader
    | some id =>
      let wf := waveFormat (h.heap p.written.length) last.fccHandler chunksize b
      .ok ({ p with r := r, written := p.written ++ [.wf id wf] }, 0)
  else .ok (p, chunksize)

/-- What a vprp chunk says about the aspect. -/
def aspect (ratio : UInt32) : List Write :=
  match p.shVideo with
  | none => []
  | some id => if ratio >>> 16 ≠ 0 ∧ ratio &&& 0xffff ≠ 0 then [.aspect id ratio] else []

/-- `nbFieldPerFrame` of a vprp chunk, as it is used. -/
def fieldsPerFrame (chunksize : UInt32) : UInt32 :=
  min (dwordAt (p.r.readInt chunksize.toNat).1 32) ((chunksize - 36) / 32)

/-- vprp.  Each of the field descriptions behind the first 36 bytes is 32 bytes. -/
def videoProp (chunksize : UInt32) : Except Fault Parser :=
  let (b, r) := p.r.readInt chunksize.toNat
  let fields := (p.fieldsPerFrame chunksize).toNat
  if 36 + 32 * fields ≤ max chunksize.toNat 100 then
    .ok { p with r := r, written := p.written ++ p.aspect (dwordAt b 20) }
  else .error .pastFields

/-- A chunk with this id and size, and what is left of it. -/
def chunk (mode : Int) (h : History) (last : Last) (id size2 : UInt32) :
    Except Fault (Parser × UInt32 × Last) :=
  let chunksize := (size2 + 1) &&& ~~~1
  match ckid id with
  | .strh =>
    (p.streamHeader h size2).map fun (p, last) => (p, chunksize - min size2 streamHeaderSize, last)
  | .strf => (p.streamFormat h last chunksize).map fun (p, chunksize) => (p, chunksize, last)
  | .vprp => (p.videoProp chunksize).map fun p => (p, 0, last)
  | k => let (p, chunksize) := p.plain mode size2 chunksize k
    .ok (p, chunksize, last)

/-- The end of a turn. -/
def leave (o : Opened) (chunksize : UInt32) : Parser :=
  let next := chunksize.toNat + p.r.pos
  let listEnd := if p.listEnd > 0 ∧ next = p.listEnd then 0 else p.listEnd
  if listEnd > 0 ∧ next > listEnd then { p with r := o.seek p.r listEnd, listEnd := 0 }
  else { p with r := p.r.skip chunksize.toNat, listEnd := listEnd }

end Parser

/-! ## The OpenDML index -/

/-- The number of entries of the standard index at this offset.  There is none where the file is
broken.  A negative position is taken for the begin of the file. -/
def Opened.stdIndex (o : Opened) (qwOffset : UInt64) : Option Nat :=
  let pos := qwOffset.toInt64.toInt.toNat
  let (b, _) := (o.seek (.start o.file) pos).read 32
  if o.seekFails pos ∨ b.length ≠ 32 ∨ dwordAt b 12 = 0 then none else some (dwordAt b 12).toNat

namespace Parser

/-- Whether the index is built from the super indices.  A short one in the file is ignored. -/
def buildsOdml (o : Opened) (p : Parser) : Prop :=
  (p.isodml ∨ p.suidx ≠ [] ∧ p.idxSize < 4) ∧ (o.mode = -1 ∨ o.mode = 0 ∨ o.mode = 1)

instance (o : Opened) (p : Parser) : Decidable (p.buildsOdml o) :=
  inferInstanceAs (Decidable (_ ∧ _))

/-- What is done with the super indices behind the headers.  `idx_size` is an `int`, to which the
numbers of entries are added, and the loop that frees the super indices begins with the first one
in any case. -/
def odml (o : Opened) (p : Parser) : Except Fault Unit :=
  if p.buildsOdml o then
    match p.suidx.flatten.mapM o.stdIndex with
    | none => if p.suidx = [] then .error .pastIndex else .ok ()
    | some nEntriesInUse =>
      if nEntriesInUse.sum ≥ 2 ^ 31 then .error .noMemory
      else if p.suidx = [] then .error .pastIndex
      else .ok ()
  else .ok ()

end Parser

/-! ## The loop -/

/-- What stands at the begin of a turn. -/
inductive Head where
  | eof
  | list (len type : UInt32) (r : Reader)
  | chunk (id size2 : UInt32) (r : Reader)

/-- The begin of a turn. -/
def head (r : Reader) : Head :=
  let (id, r) := r.dwordLe
  if r.eof then .eof
  else
    let (len, r) := r.dwordLe
    if id = fourcc 'L' 'I' 'S' 'T' then .list len r.dwordLe.1 r.dwordLe.2
    else .chunk id len r

/-- `list_end`, when the type of the list was read. -/
def listEnd (len : UInt32) (pos : Nat) : Nat :=
  if len ≥ 4 then pos + ((len - 4 + 1) &&& ~~~1).toNat else 0

/-- What the headers were given, or how they were missed. -/
abbrev Outcome := Except Fault (List Write)

/-- What follows behind the headers. -/
def finish (o : Opened) (p : Parser) : Outcome := (p.odml o).map fun _ => p.written

/-- A list. -/
def enterList (o : Opened) (p : Parser) (len type : UInt32) : Progress Outcome Parser :=
  let list := listEnd len p.r.pos
  if type = listtypeAVIMOVIE then
    if o.mode = -2 ∨ o.mode = 2 ∨ o.mode = 0 then .done (finish o p)
    else if list > 0 then .next { p with r := o.seek p.r list, listEnd := 0 }
    else .next { p with listEnd := 0 }
  else .next { p with listEnd := list }

/-- The parser and the static variables. -/
structure State where
  p : Parser
  last : Last

/-- A turn of the loop of `read_avi_header`. -/
def turn (o : Opened) (h : History) (s : State) : Progress Outcome State :=
  match head s.p.r with
  | .eof => .done (finish o s.p)
  | .list len type r =>
    match enterList o { s.p with r := r } len type with
    | .done r => .done r
    | .next p => .next ⟨p, s.last⟩
  | .chunk id size2 r =>
    match ({ s.p with r := r } : Parser).chunk o.mode h s.last id size2 with
    | .error fault => .done (.error fault)
    | .ok (p, chunksize, last) => .next ⟨p.leave o chunksize, last⟩

/-- Where `read_avi_header` begins.  `avi_check_file` has read the first 12 bytes. -/
def begin (o : Opened) (h : History) : State where
  p := ⟨(Reader.start o.file).skip 12, 0, 0, none, none, [], false, 0, [], fun h => by cases h⟩
  last := h.last

/-! ## The index -/

end AviHeader

end MPlayer
