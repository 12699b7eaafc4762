import MPlayer.Muxer.AviHeader

/-!
# The OpenDML index of an AVI file

`avifile_odml_write_index` writes the index of each stream in sub-indices of the same number
of entries.  It goes over the entries again and again and lowers that number until a pass
does not change it any more.  Then it computes how many sub-indices there are and writes them
one after the other.

The numbers in `int` wrap around.
-/

namespace MPlayer.AviMuxer

/-- `ODML_CHUNKLEN`. -/
def odmlChunkLen : Int := 0x40000000

/-- `INT_MAX`. -/
def intMax : Nat := 0x7fffffff

/-- A number as an `int`. -/
def toInt (n : Int) : Int := n.bmod (2 ^ 32)

/-- `struct avi_odmlidx_entry`. -/
structure OdmlEntry where
  ofs : UInt64
  len : UInt32
  flags : UInt32
  deriving DecidableEq

/-- A stream with the entries of its index.  Each chunk of the stream begins behind the last one. -/
structure OdmlStream where
  ckid : UInt32
  dwSampleSize : UInt32
  idx : List OdmlEntry
  increasing : idx.Pairwise fun e e' => e.ofs < e'.ofs
  idx_le : idx.length ≤ intMax

/-! ## The size of the sub-indices -/

/-- The local variables of a pass. -/
structure Pass where
  start : UInt64
  entriesPerSubidx : Nat
  n : Nat
  deriving DecidableEq

/-- The body of the inner loop, where `len` is the distance of the entry to the begin
of its sub-index. -/
def Pass.step (len : UInt64 → Int) (p : Pass) (e : OdmlEntry) : Pass :=
  if len (e.ofs - p.start) ≥ odmlChunkLen ∨ p.n ≥ p.entriesPerSubidx then
    { start := e.ofs
      entriesPerSubidx := if p.entriesPerSubidx > p.n then p.n else p.entriesPerSubidx
      n := 1 }
  else { p with n := p.n + 1 }

/-- A distance as the source computes it, in `int`. -/
def intLen (d : UInt64) : Int := toInt d.toNat

/-- A distance in 64 bits. -/
def wideLen (d : UInt64) : Int := d.toNat

/-- A pass over the entries. -/
def pass (len : UInt64 → Int) (idx : List OdmlEntry) (entriesPerSubidx n : Nat) : Pass :=
  idx.foldl (Pass.step len) ⟨(idx.head?.map OdmlEntry.ofs).getD 0, entriesPerSubidx, n⟩

/-- The passes up to one that leaves `entries_per_subidx` as it is: the two numbers with which it
begins.  `n` is set to zero in front of the first pass only. -/
@[grind =] def passes (idx : List OdmlEntry) : Nat → Nat → Nat → Option (Nat × Nat)
  | 0, _, _ => none
  | fuel + 1, entriesPerSubidx, n =>
    let p := pass intLen idx entriesPerSubidx n
    if p.entriesPerSubidx = entriesPerSubidx then some (entriesPerSubidx, n)
    else passes idx fuel p.entriesPerSubidx p.n

/-! ## The sub-indices -/

/-- A sub-index: the offset of its first entry, and its entries. -/
structure SubIndex where
  start : UInt64
  entries : List OdmlEntry
  deriving DecidableEq

/-- The sub-indices that are written, of which there are `superidxpos`. -/
@[grind =] def subIndices (entriesPerSubidx : Nat) : Nat → List OdmlEntry → List SubIndex
  | 0, _ => []
  | superidxpos + 1, idx =>
    ⟨(idx.head?.map OdmlEntry.ofs).getD 0, idx.take entriesPerSubidx⟩ ::
      subIndices entriesPerSubidx superidxpos (idx.drop entriesPerSubidx)

/-- The bytes of a sub-index. -/
def SubIndex.bytes (ckid : UInt32) (sub : SubIndex) : List UInt8 :=
  let k := UInt32.ofNat sub.entries.length
  le32 (ckid <<< 16 ||| 0x7869) ++ le32 (24 + 8 * k) ++ le32 0x01000002 ++ le32 k ++ le32 ckid ++
    le32 (sub.start + 8).toUInt32 ++ le32 ((sub.start + 8) >>> (32 : UInt64)).toUInt32 ++ le32 0 ++
    sub.entries.flatMap fun e => le32 (e.ofs - sub.start).toUInt32 ++ le32 (e.len ||| e.flags)

/-- The entry of a sub-index in the super index. -/
def SubIndex.superEntry (dwSampleSize : UInt32) (pos : UInt64) (sub : SubIndex) : SuperEntry where
  ofs := pos
  len := 32 + 8 * UInt32.ofNat sub.entries.length
  duration := (sub.entries.map fun e => if dwSampleSize ≠ 0 then e.len / dwSampleSize else 1).sum

namespace OdmlStream

variable (s : OdmlStream)

/-- The numbers with which the last pass begins.  The passes need no more fuel than that. -/
def lastPass : Option (Nat × Nat) := passes s.idx (s.idx.length + 2) intMax 0

/-- `superidxpos`. -/
def superidxpos (entriesPerSubidx : Nat) : Int :=
  (toInt (s.idx.length + entriesPerSubidx - 1)).tdiv entriesPerSubidx

/-- The sub-indices of the stream, for the chosen `entries_per_subidx`. -/
def written (entriesPerSubidx : Nat) : List SubIndex :=
  subIndices entriesPerSubidx (s.superidxpos entriesPerSubidx).toNat s.idx

/-- The super index and the bytes that are written behind the position `pos` of the file. -/
def writeSubs (pos : UInt64) : List SubIndex → List SuperEntry × List UInt8
  | [] => ([], [])
  | sub :: subs =>
    let bytes := sub.bytes s.ckid
    let (superidx, rest) := writeSubs (pos + UInt64.ofNat bytes.length) subs
    (sub.superEntry s.dwSampleSize pos :: superidx, bytes ++ rest)

/-- What `avifile_odml_write_index` does with a stream. -/
def writeIndex (pos : UInt64) : Option (List SuperEntry × List UInt8) :=
  s.lastPass.map fun last => s.writeSubs pos (s.written last.1)

end OdmlStream

/-- `avifile_odml_write_index`: the super indices of the streams and what is written. -/
def writeOdmlIndex (pos : UInt64) : List OdmlStream → Option (List (List SuperEntry) × List UInt8)
  | [] => some ([], [])
  | s :: streams => do
    let (superidx, bytes) ← s.writeIndex pos
    let (rest, bytes') ← writeOdmlIndex (pos + UInt64.ofNat bytes.length) streams
    pure (superidx :: rest, bytes ++ bytes')

end MPlayer.AviMuxer
