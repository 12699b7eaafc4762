import Mathlib.Algebra.BigOperators.Ring.List
import Mathlib.Algebra.Order.Ring.Nat
import Mathlib.Algebra.Order.BigOperators.Group.List
import MPlayer.Muxer.AviHeader

/-!
# The header of an AVI file is RIFF

The sizes that are added up in front of the lists leave out the byte that fills up a format of odd
length, and a JUNK chunk needs eight bytes in front of the next multiple of `MOVIALIGN`.
-/

namespace MPlayer.AviMuxer

/-! ## Lengths -/

theorem size32_toNat {n : Int} : (size32 n).toNat = (n % 2 ^ 32).toNat := by
  unfold size32
  rw [UInt32.toNat_ofNat', Nat.mod_eq_of_lt]
  omega

@[simp] theorem writeChunk_length (id : UInt32) (data : List UInt8) :
    (writeChunk id data).length = 8 + data.length + data.length % 2 := by
  simp only [writeChunk, List.length_append, le32_length, List.length_replicate]
  omega

@[simp] theorem RiffList.bytes_length (l : RiffList) : l.bytes.length = 12 + l.body.length := by
  simp only [RiffList.bytes, List.length_append, le32_length]
  omega

@[simp] theorem SuperEntry.bytes_length (entry : SuperEntry) : entry.bytes.length = 16 := rfl

theorem junkBytes_length (n : Nat) : (junkBytes n).length = n := by
  have hdata : junkData.length = 24 := by decide
  have hflatten : ((List.replicate (n / 24 + 1) junkData).flatten).length = (n / 24 + 1) * 24 := by
    rw [List.length_flatten, List.map_replicate, List.sum_replicate_nat, hdata]
  unfold junkBytes
  rw [List.length_take, hflatten]
  omega

namespace AviHeader

variable (hdr : AviHeader) (s : AviStream)

theorem info_length : hdr.info.body.length = (hdr.infos.map infoSize).sum := by
  unfold info writeList
  dsimp only
  rw [List.length_flatMap]
  refine congrArg List.sum (List.map_congr_left fun info _ => ?_)
  unfold infoSize
  dsimp only
  rw [writeChunk_length, List.length_append, List.length_singleton]
  omega

end AviHeader

/-! ## Sizes -/

/-- The size of a list is 4 plus the bytes that are written inside. -/
def RiffList.Sized (l : RiffList) : Prop := l.size.toNat = 4 + l.body.length

namespace AviHeader

variable (hdr : AviHeader)

/-- All formats are even, the sizes fit into 32 bits, and there is room for the header of the JUNK
chunk in front of the next multiple of `MOVIALIGN`. -/
structure Fits : Prop where
  strf_even : ∀ s ∈ hdr.streams, s.strf.length % 2 = 0
  hdrl_lt : 4 + hdr.hdrlSize < 2 ^ 32
  info_lt : 4 + (hdr.infos.map infoSize).sum < 2 ^ 32
  junk_room : (12 + (12 + hdr.hdrlSize) + (12 + (hdr.infos.map infoSize).sum)) % moviAlign + 8 ≤
    moviAlign

/-- The JUNK chunk has its size only if its first eight bytes have a place. -/
theorem junk_room (h : hdr.junkSize.toNat = (junkBody hdr.junkLen).length) :
    hdr.junkPos % moviAlign + 8 ≤ moviAlign := by
  unfold junkBody at h
  rw [junkBytes_length, junkSize, size32_toNat] at h
  unfold junkLen moviAlign at *
  split at h
  · omega
  · omega

end AviHeader

end MPlayer.AviMuxer
