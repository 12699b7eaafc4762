import Mathlib.Data.UInt

/-!
# The header of an AVI file

`avifile_write_header` adds up the size of the header list before it writes the list, and again for
each stream.  Behind the lists a JUNK chunk fills the file up to a multiple of `MOVIALIGN`, where
the movi list begins.

The bytes of `MainAVIHeader`, `AVIStreamHeader` and `VideoPropHeader` are any of their lengths,
since the sizes don't depend on them.  The header begins at the begin of the file.
-/

namespace MPlayer.AviMuxer

/-! ## Bytes -/

/-- The bytes of a number of 32 bits. -/
def le32 (x : UInt32) : List UInt8 :=
  [x.toUInt8, (x >>> 8).toUInt8, (x >>> 16).toUInt8, (x >>> 24).toUInt8]

@[simp] theorem le32_length (x : UInt32) : (le32 x).length = 4 := rfl

/-- A size as an `unsigned int`. -/
def size32 (n : Int) : UInt32 := UInt32.ofNat (n % 2 ^ 32).toNat

/-- `mmioFOURCC`. -/
def fourcc (a b c d : Char) : UInt32 :=
  UInt32.ofNat (a.toNat + b.toNat * 2 ^ 8 + c.toNat * 2 ^ 16 + d.toNat * 2 ^ 24)

/-- `MOVIALIGN`. -/
def moviAlign : Nat := 0x1000

/-! ## What is written -/

/-- An entry of the super index. -/
structure SuperEntry where
  ofs : UInt64
  len : UInt32
  duration : UInt32

/-- The bytes of an entry of the super index. -/
def SuperEntry.bytes (entry : SuperEntry) : List UInt8 :=
  le32 entry.ofs.toUInt32 ++ le32 (entry.ofs >>> (32 : UInt64)).toUInt32 ++ le32 entry.len ++
    le32 entry.duration

/-- The type of a stream. -/
inductive MuxerType where
  | video
  | audio

/-- What the header says about a stream.  `strf` is the `biSize` bytes of a `BITMAPINFOHEADER`, or
the `WFSIZE` bytes of a `WAVEFORMATEX`. -/
structure AviStream where
  type : MuxerType
  ckid : UInt32
  h : List UInt8
  strf : List UInt8
  vprp : List UInt8
  superidx : List SuperEntry
  h_length : h.length = 56
  vprp_length : vprp.length = 68
  strf_lt : strf.length < 2 ^ 31

/-- A text for the info list. -/
structure InfoText where
  id : UInt32
  text : List UInt8
  text_lt : text.length + 1 < 2 ^ 31

/-- A text that an option gives. -/
structure OptionText where
  text : List UInt8
  text_lt : text.length + 1 < 2 ^ 31

/-- What `avifile_write_header` reads.  Only an ODML file has super indices. -/
structure AviHeader where
  avih : List UInt8
  dwTotalFrames : UInt32
  streams : List AviStream
  aspect : UInt32
  isodml : Bool
  mencoderVersion : OptionText
  infoName : Option OptionText
  infoArtist : Option OptionText
  infoGenre : Option OptionText
  infoSubject : Option OptionText
  infoCopyright : Option OptionText
  infoSourceform : Option OptionText
  infoComment : Option OptionText
  moviEnd : Nat
  avih_length : avih.length = 56
  superidx_odml : isodml = false → ∀ s ∈ streams, s.superidx = []

/-! ## Chunks and lists -/

/-- `write_avi_chunk`, with data. -/
def writeChunk (id : UInt32) (data : List UInt8) : List UInt8 :=
  le32 id ++ (le32 (size32 data.length) ++ (data ++ List.replicate (data.length % 2) 0))

/-- The text of JUNK chunks. -/
def junkData : List UInt8 := "[= MPlayer junk data! =]".toList.map fun c => UInt8.ofNat c.toNat

/-- So many bytes of the text, again and again. -/
def junkBytes (n : Nat) : List UInt8 := ((List.replicate (n / 24 + 1) junkData).flatten).take n

/-- What `write_avi_chunk` writes behind the size, without data. -/
def junkBody (len : Int) : List UInt8 := junkBytes (if len % 2 = 1 then len + 1 else len).toNat

/-- A list, with its size as it is written, and what is written inside. -/
structure RiffList where
  size : UInt32
  id : UInt32
  body : List UInt8

/-- `write_avi_list`, and what is written then. -/
def writeList (id : UInt32) (len : Int) (body : List UInt8) : RiffList where
  size := size32 (len + 4)
  id := id
  body := body

/-- The bytes of a list. -/
def RiffList.bytes (l : RiffList) : List UInt8 :=
  le32 (fourcc 'L' 'I' 'S' 'T') ++ (le32 l.size ++ (le32 l.id ++ l.body))

namespace AviHeader

/-! ## Streams -/

/-- The size of the super index. -/
def indxSize (s : AviStream) : Nat := if s.superidx = [] then 0 else 32 + 16 * s.superidx.length

/-- The size of the format, and of the video properties. -/
def strfSize (hdr : AviHeader) (s : AviStream) : Nat :=
  match s.type with
  | .video => s.strf.length + 8 + if hdr.aspect ≠ 0 then 8 + 4 * (9 + 8 * 1) else 0
  | .audio => s.strf.length + 8

/-- The size of a stream's list. -/
def strlSize (hdr : AviHeader) (s : AviStream) : Nat := 56 + 8 + indxSize s + hdr.strfSize s

/-- The super index of a stream. -/
def indx (s : AviStream) : List UInt8 :=
  let n := s.superidx.length
  if n = 0 then []
  else
    le32 (fourcc 'i' 'n' 'd' 'x') ++ le32 (size32 (24 + 16 * n)) ++ le32 4 ++ le32 (size32 n) ++
      le32 s.ckid ++ le32 0 ++ le32 0 ++ le32 0 ++ s.superidx.flatMap SuperEntry.bytes

/-- The format of a stream, and the video properties. -/
def strf (hdr : AviHeader) (s : AviStream) : List UInt8 :=
  match s.type with
  | .video => writeChunk (fourcc 's' 't' 'r' 'f') s.strf ++
      if hdr.aspect ≠ 0 then writeChunk (fourcc 'v' 'p' 'r' 'p') s.vprp else []
  | .audio => writeChunk (fourcc 's' 't' 'r' 'f') s.strf

/-- The list of a stream. -/
def strl (hdr : AviHeader) (s : AviStream) : RiffList :=
  writeList (fourcc 's' 't' 'r' 'l') (hdr.strlSize s)
    (writeChunk (fourcc 's' 't' 'r' 'h') s.h ++ hdr.strf s ++ if hdr.isodml then indx s else [])

/-! ## Lists -/

/-- What a stream adds to the size of the header list. -/
def streamSize (hdr : AviHeader) (s : AviStream) : Nat :=
  12 + (56 + 8) + hdr.strfSize s + if hdr.isodml then indxSize s else 0

/-- The size of the header list. -/
def hdrlSize (hdr : AviHeader) : Nat :=
  56 + 8 + (if hdr.isodml then 4 + 20 else 0) + (hdr.streams.map hdr.streamSize).sum

/-- The list for ODML. -/
def odml (hdr : AviHeader) : RiffList :=
  writeList (fourcc 'o' 'd' 'm' 'l') (4 + 8)
    (writeChunk (fourcc 'd' 'm' 'l' 'h') (le32 hdr.dwTotalFrames))

/-- The header list. -/
def hdrl (hdr : AviHeader) : RiffList :=
  writeList (fourcc 'h' 'd' 'r' 'l') hdr.hdrlSize
    (writeChunk (fourcc 'a' 'v' 'i' 'h') hdr.avih ++
      (hdr.streams.flatMap fun s => (hdr.strl s).bytes) ++
      if hdr.isodml then hdr.odml.bytes else [])

/-- The texts of the info list. -/
def infos (hdr : AviHeader) : List InfoText :=
  let text (id : UInt32) (t : OptionText) : InfoText := ⟨id, t.text, t.text_lt⟩
  text (fourcc 'I' 'S' 'F' 'T') hdr.mencoderVersion ::
    [hdr.infoName.map (text (fourcc 'I' 'N' 'A' 'M')),
      hdr.infoArtist.map (text (fourcc 'I' 'A' 'R' 'T')),
      hdr.infoGenre.map (text (fourcc 'I' 'G' 'N' 'R')),
        hdr.infoSubject.map (text (fourcc 'I' 'S' 'B' 'J')),
      hdr.infoCopyright.map (text (fourcc 'I' 'C' 'O' 'P')),
      hdr.infoSourceform.map (text (fourcc 'I' 'S' 'R' 'F')),
      hdr.infoComment.map (text (fourcc 'I' 'C' 'M' 'T'))].filterMap id

/-- What a text adds to the size of the info list. -/
def infoSize (info : InfoText) : Nat :=
  let sz := info.text.length + 1
  sz + 8 + sz % 2

/-- The info list. -/
def info (hdr : AviHeader) : RiffList :=
  writeList (fourcc 'I' 'N' 'F' 'O') (hdr.infos.map infoSize).sum
    (hdr.infos.flatMap fun info => writeChunk info.id (info.text ++ [0]))

/-- The lists in front of the padding, each with the lists inside of it. -/
def lists (hdr : AviHeader) : List RiffList :=
  hdr.hdrl :: (hdr.streams.map hdr.strl ++ (if hdr.isodml then [hdr.odml] else []) ++ [hdr.info])

/-! ## The padding -/

/-- Where the JUNK chunk begins, behind 12 bytes of the RIFF header and the lists. -/
def junkPos (hdr : AviHeader) : Nat := 12 + hdr.hdrl.bytes.length + hdr.info.bytes.length

/-- The length of the JUNK chunk. -/
def junkLen (hdr : AviHeader) : Int := moviAlign - (hdr.junkPos % moviAlign : Nat) - 8

/-- The size of the JUNK chunk, as it is written. -/
def junkSize (hdr : AviHeader) : UInt32 := size32 hdr.junkLen

/-- Where the movi list begins. -/
def moviPos (hdr : AviHeader) : Nat := hdr.junkPos + 8 + (junkBody hdr.junkLen).length

/-- The size of the movi list, as it is written. -/
def moviSize (hdr : AviHeader) : UInt32 := size32 (hdr.moviEnd - hdr.moviPos - 12 + 4)

/-- `movi_start`. -/
def moviStart (hdr : AviHeader) : Nat := hdr.moviPos + 12

/-- What `avifile_write_header` writes behind the RIFF header. -/
def write (hdr : AviHeader) : List UInt8 :=
  hdr.hdrl.bytes ++ hdr.info.bytes ++
    (le32 (fourcc 'J' 'U' 'N' 'K') ++ le32 hdr.junkSize ++ junkBody hdr.junkLen) ++
    (le32 (fourcc 'L' 'I' 'S' 'T') ++ le32 hdr.moviSize ++ le32 (fourcc 'm' 'o' 'v' 'i'))

end AviHeader

end MPlayer.AviMuxer
