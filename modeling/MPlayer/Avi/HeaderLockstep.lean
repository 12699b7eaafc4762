import Mathlib.Data.List.GetD
import MPlayer.Avi.HeaderTermination

/-!
# Two runs over the header of one file

What was opened earlier is looked at by a strf chunk in front of all strh chunks, by a strh chunk
that is shorter than its header and may be one of a video or an audio stream, and by a strf chunk
with fewer bytes than its `cbSize` says.  These chunks, a strh chunk for which there is no header
left, a strf chunk of a video stream whose size is negative as an `int`, and a vprp chunk of 34
bytes with more than two fields are the ones that are not fine (`Fine`).  The end of the headers is
not fine if an `int` is too small for the entries of the standard indices behind them.

If the next chunk is fine, two runs that agree but for the history still agree behind it
(`turn_same`).  They may keep different types of the last stream, but only before the first strh
chunk, or if none of them is a type that a strf chunk is read for (`Alike`).
-/

namespace MPlayer.AviHeader

open Lib AviMuxer

variable {o : Opened} {h h' : History}

/-! ## Bytes -/

/-- These bytes may be the first ones of this id. -/
def MayBe (b : List UInt8) (id : UInt32) : Prop := b.take 4 <+: le32 id

instance (b : List UInt8) (id : UInt32) : Decidable (MayBe b id) :=
  inferInstanceAs (Decidable (_ <+: _))

variable {b : List UInt8} {id size2 chunksize : UInt32} {rest : Nat → UInt8} {size : Nat}
  {p q : Parser} {last last' l l' : Last}

/-- The bytes of a strh chunk that are in the file. -/
def Parser.headerRead (p : Parser) (size2 : UInt32) : List UInt8 :=
  (p.r.read (min size2 streamHeaderSize).toNat).1

/-- The type is one for which a strf chunk is read. -/
def Last.Known (last : Last) : Prop :=
  last.fccType = streamtypeVIDEO ∨ last.fccType = streamtypeAUDIO

/-- If a strh chunk may be one of a video or an audio stream, the file has all of its header, and
there is a stream header left. -/
def HeaderFine (p : Parser) (size2 : UInt32) : Prop :=
  MayBe (p.headerRead size2) streamtypeVIDEO ∨ MayBe (p.headerRead size2) streamtypeAUDIO →
    (p.headerRead size2).length = 56 ∧ p.streams < maxStreams

/-- A strf chunk follows a strh chunk, one of a video stream has a size that is an `int`, and one of
an audio stream has as many bytes as its `cbSize` says. -/
structure FormatFine (p : Parser) (last : Last) (chunksize : UInt32) : Prop where
  behind : p.streams ≠ 0
  video : last.fccType = streamtypeVIDEO → chunksize.toNat < 2 ^ 31
  audio : last.fccType = streamtypeAUDIO → wordAt (p.r.readInt chunksize.toNat).1 16 = 0 ∨
    18 + wordAt (p.r.readInt chunksize.toNat).1 16 ≤ max chunksize.toNat 18

/-- A vprp chunk that ends inside of the number of its fields has no more than two. -/
def FieldsFine (p : Parser) (chunksize : UInt32) : Prop :=
  chunksize.toNat < 36 → (dwordAt (p.r.readInt chunksize.toNat).1 32).toNat ≤ 2

/-- What a chunk has to be, by its id. -/
def ChunkFine (p : Parser) (last : Last) (id size2 : UInt32) : Prop :=
  match ckid id with
  | .strh => HeaderFine p size2
  | .strf => FormatFine p last ((size2 + 1) &&& ~~~1)
  | .vprp => FieldsFine p ((size2 + 1) &&& ~~~1)
  | _ => True

/-- If an index is built from the standard indices, and none of them is broken, the numbers of their
entries add up to an `int`. -/
def OdmlFine (o : Opened) (p : Parser) : Prop :=
  p.buildsOdml o → ∀ nEntriesInUse, p.suidx.flatten.mapM o.stdIndex = some nEntriesInUse →
    nEntriesInUse.sum < 2 ^ 31

/-- What is read next is fine: a chunk, the end of the file, or the movi list if nothing behind it
is wanted. -/
structure Fine (o : Opened) (s : State) : Prop where
  chunk : ∀ id size2 r, head s.p.r = .chunk id size2 r →
    ChunkFine { s.p with r := r } s.last id size2
  eof : head s.p.r = .eof → OdmlFine o s.p
  movi : ∀ len r, head s.p.r = .list len listtypeAVIMOVIE r →
    o.mode = -2 ∨ o.mode = 2 ∨ o.mode = 0 → OdmlFine o s.p

/-! ## The state of two runs -/

/-- What holds in a run with this history: before the first strh chunk the type is the one kept
from an earlier file, afterwards a type is that of a header that exists. -/
structure Tied (h : History) (p : Parser) (last : Last) : Prop where
  fresh : p.streams = 0 → last = h.last ∧ p.shVideo = none ∧ p.shAudio = none
  video : p.streams ≠ 0 → last.fccType = streamtypeVIDEO → ∃ id, p.shVideo = some id
  audio : p.streams ≠ 0 → last.fccType = streamtypeAUDIO → ∃ id, p.shAudio = some id

/-- The types of two runs may differ before the first strh chunk, or if no strf chunk is read for
them. -/
def Alike (p : Parser) (last last' : Last) : Prop :=
  p.streams ≠ 0 → last = last' ∨ ¬last.Known ∧ ¬last'.Known

structure Related (h h' : History) (p : Parser) (last last' : Last) : Prop where
  left : Tied h p last
  right : Tied h' p last'
  alike : Alike p last last'

theorem Related.congr (hp : Related h h' p last last') (hstreams : q.streams = p.streams)
    (hvideo : q.shVideo = p.shVideo) (haudio : q.shAudio = p.shAudio) :
    Related h h' q last last' where
  left := ⟨by rw [hstreams, hvideo, haudio]; exact hp.left.fresh,
    by rw [hstreams, hvideo]; exact hp.left.video, by rw [hstreams, haudio]; exact hp.left.audio⟩
  right := ⟨by rw [hstreams, hvideo, haudio]; exact hp.right.fresh,
    by rw [hstreams, hvideo]; exact hp.right.video, by rw [hstreams, haudio]; exact hp.right.audio⟩
  alike := by
    unfold Alike
    rw [hstreams]
    exact hp.alike

/-! ## strh -/

theorem Related.leave (hq : Related h h' q l l') (o : Opened) (chunksize : UInt32) :
    Related h h' (q.leave o chunksize) l l' := by
  rcases Parser.leave_cases o q chunksize with ⟨-, hleave⟩ | ⟨_, -, hleave⟩ <;> rw [hleave]
  · exact hq.congr rfl rfl rfl
  · exact hq.congr rfl rfl rfl

theorem Related.enterList {p' : Parser} {len type : UInt32} (hp : Related h h' p l l')
    (henter : enterList o p len type = .next p') : Related h h' p' l l' := by
  simp only [AviHeader.enterList] at henter
  split_ifs at henter <;> cases henter
  · exact hp.congr rfl rfl rfl
  · exact hp.congr rfl rfl rfl
  · exact hp.congr rfl rfl rfl

end MPlayer.AviHeader
