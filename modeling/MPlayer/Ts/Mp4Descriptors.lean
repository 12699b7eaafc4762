import MPlayer.Lib.Upsert
import MPlayer.Ts.Tables

/-!
# MPEG-4 descriptors

`parse_mp4_descriptors` reads a sequence of descriptors, some of which have descriptors in them.
What is read is recorded with the extents of the calls that are active, the innermost one first, and
so is the kind of element that a handler gets for the one it casts to.

A call returns its length, so that the loops over nested descriptors in a handler end behind one
turn.  A negative length is like zero.  What a handler does to an element of another kind is not
defined; here it does nothing.
-/

namespace MPlayer

open Lib

/-- What `memset` leaves. -/
def Mp4SlConfig.zero : Mp4SlConfig where
  auStart := false
  auEnd := false
  randomAccesspoint := false
  padding := false
  useTs := false
  idle := false
  tsResolution := 0
  tsLen := 0
  ocrLen := 0
  auLen := 0
  instantBitrateLen := 0
  degrLen := 0
  auSeqnumLen := 0
  packetSeqnumLen := 0

/-- What `memset` leaves, with an id. -/
def Mp4EsDescr.zero (id : UInt16) : Mp4EsDescr := ⟨id, ⟨.unset, .unset, []⟩, .zero⟩

/-- What `elem` points to. -/
inductive Mp4Elem where
  | null
  | es (es : Mp4EsDescr)
  | decoder (dec : Mp4DecoderConfig)

inductive Mp4ElemKind where
  | null | es | decoder
  deriving DecidableEq

def Mp4Elem.kind : Mp4Elem → Mp4ElemKind
  | null => .null
  | es _ => .es
  | decoder _ => .decoder

/-- The position and the length of a buffer that is parsed. -/
abbrev Mp4Extent := Nat × Nat

inductive Mp4Event where
  /-- `n` bytes were read. -/
  | read (extents : List Mp4Extent) (pos n : Nat)
  /-- An element of the kind `given` was cast. -/
  | cast (kind given : Mp4ElemKind)

structure Mp4Run where
  pmt : Pmt
  elem : Mp4Elem
  log : List Mp4Event

namespace Mp4Run

def read (extents : List Mp4Extent) (pos n : Nat) (r : Mp4Run) : Mp4Run :=
  { r with log := .read extents pos n :: r.log }

def cast (kind : Mp4ElemKind) (r : Mp4Run) : Mp4Run :=
  { r with log := .cast kind r.elem.kind :: r.log }

end Mp4Run

/-! ## Lengths -/

/-- The result of `get_mp4_desc_len`: the size, the length that `len` is set to, and the number of
bytes that were read. -/
structure Mp4DescLen where
  size : Nat
  len : Nat
  reads : Nat

/-- The loop of `get_mp4_desc_len`. -/
def mp4DescLenFrom (mem : Nat → UInt8) (buf : Nat) : Nat → Nat → Nat → Mp4DescLen
  | 0, i, size => ⟨size % 65536, i + 1, i⟩
  | turns + 1, i, size =>
    let size := size ||| ((mem (buf + i)).toNat &&& 0x7f)
    if mem (buf + i) &&& 0x80 = 0 then ⟨size % 65536, i + 1, i + 1⟩
    else mp4DescLenFrom mem buf turns (i + 1) (size <<< 7)

/-- `get_mp4_desc_len`. -/
def getMp4DescLen (mem : Nat → UInt8) (buf len : Nat) : Mp4DescLen :=
  mp4DescLenFrom mem buf (min len 4) 0 0

/-! ## Handlers -/

section Handlers

variable (mem : Nat → UInt8) (extents : List Mp4Extent)

/-- The flags and lengths in an SL configuration, and how much of it was read. -/
def mp4SlConfig (buf : Nat) (sl : Mp4SlConfig) : Mp4SlConfig × Nat :=
  let sl := { sl with
    tsLen := 0, ocrLen := 0, auLen := 0, instantBitrateLen := 0, degrLen := 0, auSeqnumLen := 0
    packetSeqnumLen := 0 }
  let be32 (i : Nat) : UInt32 :=
    (mem (buf + i)).toUInt32 <<< 24 ||| (mem (buf + i + 1)).toUInt32 <<< 16 |||
      (mem (buf + i + 2)).toUInt32 <<< 8 ||| (mem (buf + i + 3)).toUInt32
  let (sl, flags, i) : Mp4SlConfig × UInt8 × Nat :=
    if mem buf = 0 then
      ({ sl with
          tsResolution := be32 2
          tsLen := mem (buf + 10)
          ocrLen := mem (buf + 11)
          auLen := mem (buf + 12)
          instantBitrateLen := mem (buf + 13)
          degrLen := (mem (buf + 14) >>> 4) &&& 0x0f
          auSeqnumLen := (mem (buf + 14) &&& 0x0f) <<< 1 ||| (mem (buf + 15) >>> 7) &&& 0x01
          packetSeqnumLen := (mem (buf + 15) >>> 2) &&& 0x1f }, mem (buf + 1), 16)
    else if mem buf = 1 then ({ sl with tsResolution := 1000, tsLen := 32 }, 0, 1)
    else if mem buf = 2 then (sl, 4, 1)
    else (sl, 0, 1)
  let sl := { sl with
    auStart := (flags >>> 7) &&& 0x1 = 1
    auEnd := (flags >>> 6) &&& 0x1 = 1
    randomAccesspoint := (flags >>> 5) &&& 0x1 = 1
    padding := (flags >>> 3) &&& 0x1 = 1
    useTs := (flags >>> 2) &&& 0x1 = 1
    idle := (flags >>> 1) &&& 0x1 = 1 }
  -- the duration is not used
  (sl, if flags &&& 0x1 = 1 then i + 8 else i)

/-- `parse_mp4_slconfig_descriptor`. -/
def parseMp4SlconfigDescriptor (buf : Nat) (r : Mp4Run) : Mp4Run :=
  match r.elem with
  | .null => r
  | .es es =>
    let (sl, i) := mp4SlConfig mem buf es.sl
    { (r.cast .es).read extents buf i with elem := .es { es with sl := sl } }
  | .decoder _ => (r.cast .es).read extents buf (mp4SlConfig mem buf .zero).2

/-- The types of a stream. -/
def mp4ObjectType (objectType streamType : UInt8) : EsType × Mp4StreamType :=
  if objectType = 1 ∧ streamType = 1 then (.mp4Od, .mp4Od)
  else if streamType = 4 then
    -- 0x6a becomes VIDEO_MPEG1, which is none of the values behind it
    if 0x60 ≤ objectType ∧ objectType ≤ 0x65 then (.videoMpeg2, .video)
    else if objectType = 0x20 then (.videoMpeg4, .video)
    else if objectType = 0x21 then (.videoAvc, .video)
    else (.unknown, .video)
  else if streamType = 5 then
    if objectType = 0x40 then (.audioAac, .audio)
    else if objectType = 0x6b then (.audioMp2, .audio)
    else if 0x66 ≤ objectType ∧ objectType ≤ 0x69 then (.audioMp2, .audio)
    else (.unknown, .audio)
  else (.unknown, .unknown)

/-- The part of `parse_mp4_decoder_config_descriptor` in front of the nested descriptors. -/
def mp4DecoderConfig (buf : Nat) (es : Mp4EsDescr) (pmt : Pmt) : Mp4DecoderConfig × Pmt :=
  let (objectType, streamType) := mp4ObjectType (mem buf) ((mem (buf + 1) >>> 2) &&& 0x3f)
  let dec := { es.decoder with objectType := objectType, streamType := streamType }
  let update (e : PmtEs) : PmtEs := if e.mp4EsId = es.id then { e with type := .slPesStream } else e
  (dec, if objectType = .unknown then pmt else { pmt with es := pmt.es.map update })

/-- `parse_mp4_decoder_config_descriptor`. -/
def parseMp4DecoderConfigDescriptor (buf len : Nat)
    (parse : (buf n : Nat) → n < len → Mp4Run → Mp4Run) (r : Mp4Run) : Mp4Run :=
  let nested (r : Mp4Run) : Mp4Run :=
    if h : 13 < len then parse (buf + 13) (len - 13) (by omega) r else r
  match r.elem with
  | .null => r
  | .es es =>
    let r := (r.cast .es).read extents buf 2
    let (dec, pmt) := mp4DecoderConfig mem buf es r.pmt
    let r := nested { r with elem := .decoder dec, pmt := pmt }
    match r.elem with
    | .decoder dec => { r with elem := .es { es with decoder := dec } }
    | _ => { r with elem := .es es }
  | .decoder dec =>
    { nested ((r.cast .es).read extents buf 2) with elem := .decoder dec }

/-- `parse_mp4_decoder_specific_descriptor`. -/
def parseMp4DecoderSpecificDescriptor (buf len : Nat) (r : Mp4Run) : Mp4Run :=
  match r.elem with
  | .null => r
  | .es _ => (r.cast .decoder).read extents buf len
  | .decoder dec =>
    let r := (r.cast .decoder).read extents buf len
    if len > 64 * 1024 then r
    else
      let bytes := (List.range len).map fun i => mem (buf + i)
      { r with elem := .decoder { dec with buf := bytes } }

/-- The header of an ES descriptor: where it says that a URL is, and its length. -/
def mp4EsHeader (buf : Nat) : Option Nat × Nat :=
  let flag := mem (buf + 2)
  let i := if flag &&& 0x80 ≠ 0 then 5 else 3
  let url := if flag &&& 0x40 ≠ 0 then some i else none
  let i := if flag &&& 0x40 ≠ 0 then i + (mem (buf + i)).toNat + 1 else i
  (url, if flag &&& 0x20 ≠ 0 then i + 2 else i)

def readMp4EsHeader (buf : Nat) (r : Mp4Run) : Mp4Run :=
  match (mp4EsHeader mem buf).1 with
  | some i => (r.read extents buf 3).read extents (buf + i) 1
  | none => r.read extents buf 3

theorem mp4EsHeader_pos (buf : Nat) : 0 < (mp4EsHeader mem buf).2 := by
  unfold mp4EsHeader
  dsimp only
  split <;> split <;> split <;> omega

/-- The entry of `mp4es`.  There is at most one with an id. -/
def putMp4Es (es : Mp4EsDescr) (pmt : Pmt) : Pmt :=
  if es.decoder.objectType ≠ .unknown ∧ es.decoder.streamType ≠ .unknown then
    { pmt with mp4es := upsert (·.id = es.id) (fun _ => es) pmt.mp4es }
  else pmt

/-- `parse_mp4_es_descriptor`. -/
def parseMp4EsDescriptor (buf len : Nat) (parse : (buf n : Nat) → n < len → Mp4Run → Mp4Run)
    (r : Mp4Run) : Mp4Run :=
  if h : 0 < len then
    let id := (mem buf).toUInt16 <<< 8 ||| (mem (buf + 1)).toUInt16
    let i := (mp4EsHeader mem buf).2
    have hi : 0 < i := mp4EsHeader_pos mem buf
    let nested := parse (buf + i) (len - i) (by omega)
      { readMp4EsHeader mem extents buf r with elem := .es (.zero id) }
    match nested.elem with
    | .es es => { nested with elem := r.elem, pmt := putMp4Es es nested.pmt }
    | _ => { nested with elem := r.elem }
  else r

/-- What `parse_mp4_object_descriptor` and `parse_mp4_iod` do.  Descriptors are nested behind
`skip` bytes, unless there is a URL. -/
def parseMp4Od (skip : Nat) (hskip : 0 < skip) (buf len : Nat)
    (parse : (buf n : Nat) → n < len → Mp4Run → Mp4Run) (r : Mp4Run) : Mp4Run :=
  let r := r.read extents buf 2
  if mem (buf + 1) &&& 0x20 ≠ 0 then r.read extents (buf + 2) 1
  else if h : skip < len then parse (buf + skip) (len - skip) (by omega) r
  else r

/-- `parse_mp4_object_descriptor`. -/
def parseMp4ObjectDescriptor (buf len : Nat) (parse : (buf n : Nat) → n < len → Mp4Run → Mp4Run)
    (r : Mp4Run) : Mp4Run :=
  parseMp4Od mem extents 2 Nat.two_pos buf len parse r

/-- `parse_mp4_iod`. -/
def parseMp4Iod (buf len : Nat) (parse : (buf n : Nat) → n < len → Mp4Run → Mp4Run)
    (r : Mp4Run) : Mp4Run :=
  parseMp4Od mem extents 7 (by decide) buf len parse r

/-- The handler of a descriptor. -/
def parseMp4Descriptor (tag : UInt8) (buf len : Nat)
    (parse : (buf n : Nat) → n < len → Mp4Run → Mp4Run) (r : Mp4Run) : Mp4Run :=
  if tag = 0x1 then parseMp4ObjectDescriptor mem extents buf len parse r
  else if tag = 0x2 then parseMp4Iod mem extents buf len parse r
  else if tag = 0x3 then parseMp4EsDescriptor mem extents buf len parse r
  else if tag = 0x4 then parseMp4DecoderConfigDescriptor mem extents buf len parse r
  else if tag = 0x5 then parseMp4DecoderSpecificDescriptor mem extents buf len r
  else if tag = 0x6 then parseMp4SlconfigDescriptor mem extents buf r
  else r

end Handlers

/-! ## Sequences -/

theorem mp4DescLenFrom_spec (mem : Nat → UInt8) (buf turns i size : Nat) :
    (mp4DescLenFrom mem buf turns i size).len ≤ i + turns + 1 ∧
      i < (mp4DescLenFrom mem buf turns i size).len ∧
      (mp4DescLenFrom mem buf turns i size).reads ≤ i + turns := by
  induction turns generalizing i size with
  | zero => exact ⟨Nat.le_refl _, Nat.lt_succ_self _, Nat.le_refl _⟩
  | succ turns ih =>
    unfold mp4DescLenFrom
    dsimp only
    split
    · exact ⟨by dsimp only; omega, by dsimp only; omega, by dsimp only; omega⟩
    · have hnext := ih (i + 1) ((size ||| ((mem (buf + i)).toNat &&& 0x7f)) <<< 7)
      omega

theorem getMp4DescLen_spec (mem : Nat → UInt8) (buf len : Nat) :
    (getMp4DescLen mem buf len).len ≤ len + 1 ∧ 0 < (getMp4DescLen mem buf len).len ∧
      (getMp4DescLen mem buf len).reads ≤ len := by
  have h := mp4DescLenFrom_spec mem buf (min len 4) 0 0
  unfold getMp4DescLen
  omega

/-- The loop of `parse_mp4_descriptors`. -/
def mp4Loop (mem : Nat → UInt8) (extents : List Mp4Extent) (buf len : Nat)
    (parse : (buf n : Nat) → n < len → Mp4Run → Mp4Run) (i : Nat) (r : Mp4Run) : Mp4Run :=
  if hi : i < len then
    let tag := mem (buf + i)
    let d := getMp4DescLen mem (buf + i + 1) (len - i - 1)
    let r := (r.read extents (buf + i) 1).read extents (buf + i + 1) d.reads
    if h : d.size > len - d.len + 1 then r
    else
      have hd : d.len ≤ len - i - 1 + 1 ∧ 0 < d.len ∧ d.reads ≤ len - i - 1 :=
        getMp4DescLen_spec mem (buf + i + 1) (len - i - 1)
      have hsize : d.size ≤ len := by omega
      let i := i + d.len + 1
      let r := parseMp4Descriptor mem extents tag (buf + i) d.size
        (fun buf n hn => parse buf n (Nat.lt_of_lt_of_le hn hsize)) r
      mp4Loop mem extents buf len parse (i + d.size) r
  else r
termination_by len - i

/-- `parse_mp4_descriptors`. -/
def parseMp4Descriptors (mem : Nat → UInt8) (outer : List Mp4Extent) (buf len : Nat)
    (r : Mp4Run) : Mp4Run :=
  mp4Loop mem ((buf, len) :: outer) buf len
    (fun b n _ r => parseMp4Descriptors mem ((buf, len) :: outer) b n r) 0 r
termination_by len

end MPlayer
