import MPlayer.Lib.Memory
import Mathlib.Data.Nat.Bitwise
import Mathlib.Tactic.SplitIfs

/-!
# Sections

A PSI section comes in the payloads of several packets.  They are collected in a buffer until the
section is complete.  A read or a write that is not in the buffer is an access violation (`none`).
-/

namespace MPlayer

open Lib

/-- The size of the buffer of a section. -/
def sectionBufferSize : Nat := 4096 + 256

/-- `ts_section_t`. -/
structure TsSection where
  buffer : Option (Nat → UInt8)
  bufferLen : Nat

namespace TsSection

def empty : TsSection := ⟨none, 0⟩

def get (s : TsSection) (i : Nat) : Option UInt8 :=
  if i < sectionBufferSize then s.buffer.map (· i) else none

/-- `memcpy` behind what is collected. -/
def append (s : TsSection) (buff : List UInt8) : Option TsSection :=
  if s.bufferLen + buff.length ≤ sectionBufferSize then
    s.buffer.map fun buffer => ⟨some (blit buffer s.bufferLen buff), s.bufferLen + buff.length⟩
  else none

/-- Where the section begins if it is complete, and zero if it is not. -/
def complete (s : TsSection) : Option Nat :=
  if s.bufferLen < 3 then some 0
  else do
    let skip := (← s.get 0).toNat
    if skip + 4 > s.bufferLen then some 0
    else do
      let tlen := ((← s.get (skip + 2)).toNat &&& 0x0f) <<< 8 ||| (← s.get (skip + 3)).toNat
      if s.bufferLen < skip + 1 + 3 + tlen then some 0 else some (skip + 1)

/-- `malloc` if there is no buffer yet.  It leaves `fresh` there. -/
def start (fresh : Nat → UInt8) (s : TsSection) : TsSection := ⟨some (s.buffer.getD fresh), 0⟩

end TsSection

/-- `collect_section`. -/
def collectSection (fresh : Nat → UInt8) (s : TsSection) (isStart : Bool) (buff : List UInt8) :
    Option (Nat × TsSection) :=
  if !isStart && s.bufferLen == 0 then some (0, s)
  else
    let s := if isStart then s.start fresh else s
    if buff.length + s.bufferLen > sectionBufferSize then some (0, s)
    else do
      let s ← s.append buff
      let skip ← s.complete
      some (skip, s)

namespace TsSection

/-- The bytes `c` were collected. -/
structure Holds (s : TsSection) (c : List UInt8) : Prop where
  bufferLen : s.bufferLen = c.length
  le : c.length ≤ sectionBufferSize
  mirrors : ∃ buffer, s.buffer = some buffer ∧ Mirrors buffer 0 c 0 c.length

variable {s t : TsSection} {c : List UInt8}

theorem Holds.get {bs : List UInt8} {i : Nat} {b : UInt8} (h : s.Holds bs)
    (hi : bs[i]? = some b) : s.get i = some b := by
  obtain ⟨buffer, hbuffer, hmirrors⟩ := h.mirrors
  obtain ⟨hlt, -⟩ := List.getElem?_eq_some_iff.1 hi
  have hcell := hmirrors i hlt
  rw [Nat.zero_add, hi] at hcell
  have hle := h.le
  rw [TsSection.get, if_pos (by omega), hbuffer, hcell]
  rfl

theorem Holds.get_getD {i : Nat} (h : s.Holds c) (hi : i < c.length) :
    s.get i = some (c.getD i 0) := by
  rw [List.getD_eq_getElem c 0 hi]
  exact h.get (List.getElem?_eq_getElem hi)

theorem Holds.get_of_lt {i : Nat} (h : s.Holds c) (hi : i < sectionBufferSize) :
    ∃ b, s.get i = some b := by
  obtain ⟨buffer, hbuffer, -⟩ := h.mirrors
  exact ⟨buffer i, by rw [TsSection.get, if_pos hi, hbuffer]; rfl⟩

theorem Holds.append (h : s.Holds c) {buff : List UInt8}
    (hle : c.length + buff.length ≤ sectionBufferSize) :
    ∃ t, s.append buff = some t ∧ t.Holds (c ++ buff) := by
  obtain ⟨buffer, hbuffer, hmirrors⟩ := h.mirrors
  refine ⟨⟨some (blit buffer s.bufferLen buff), s.bufferLen + buff.length⟩, ?_, ?_, ?_, ?_⟩
  · rw [TsSection.append, h.bufferLen, if_pos hle, hbuffer]
    rfl
  · rw [h.bufferLen, List.length_append]
  · rwa [List.length_append]
  · refine ⟨_, rfl, ?_⟩
    have hconcat := hmirrors.blit_concat buff
    rwa [Nat.zero_add, ← h.bufferLen] at hconcat

/-- Where the section in the bytes `c` begins if it is complete, and zero if it is not. -/
def completeIn (c : List UInt8) : Nat :=
  let skip := (c.getD 0 0).toNat
  let tlen := ((c.getD (skip + 2) 0).toNat &&& 0x0f) <<< 8 ||| (c.getD (skip + 3) 0).toNat
  if c.length < 3 then 0
  else if skip + 4 > c.length then 0
  else if c.length < skip + 1 + 3 + tlen then 0
  else skip + 1

theorem completeIn_le (c : List UInt8) : completeIn c ≤ 256 := by
  have hskip := (c.getD 0 0).toNat_lt
  unfold completeIn
  dsimp only
  split_ifs
  all_goals omega

theorem Holds.complete (h : s.Holds c) : s.complete = some (completeIn c) := by
  unfold TsSection.complete completeIn
  dsimp only
  rw [h.bufferLen]
  by_cases hthree : c.length < 3
  · rw [if_pos hthree, if_pos hthree]
  · rw [if_neg hthree, if_neg hthree, h.get_getD (i := 0) (by omega)]
    dsimp only [bind, Option.bind]
    by_cases hskip : (c.getD 0 0).toNat + 4 > c.length
    · rw [if_pos hskip, if_pos hskip]
    · rw [if_neg hskip, if_neg hskip, h.get_getD (by omega), h.get_getD (by omega)]
      dsimp only
      split
      · rfl
      · rfl

theorem start_holds (fresh : Nat → UInt8) (s : TsSection) : (s.start fresh).Holds [] :=
  ⟨rfl, Nat.zero_le _, _, rfl, .zero _ _ _ _⟩

/-- What a section is in any run. -/
def Ok (s : TsSection) : Prop := s = empty ∨ ∃ c, s.Holds c

end TsSection

open TsSection

variable {s : TsSection} {c buff : List UInt8}

theorem collect_start (fresh : Nat → UInt8) (s : TsSection)
    (hle : buff.length ≤ sectionBufferSize) :
    ∃ t, collectSection fresh s true buff = some (completeIn buff, t) ∧ t.Holds buff := by
  obtain ⟨t, happend, ht⟩ := (start_holds fresh s).append
    (show [].length + buff.length ≤ sectionBufferSize by simpa using hle)
  refine ⟨t, ?_, ht⟩
  have hfits : ¬buff.length + (s.start fresh).bufferLen > sectionBufferSize := Nat.not_lt.2 hle
  rw [collectSection, if_neg (by simp)]
  dsimp only
  rw [if_pos rfl, if_neg hfits, happend]
  dsimp only [bind, Option.bind]
  rw [ht.complete, List.nil_append]

theorem collect_more (fresh : Nat → UInt8) (h : s.Holds c) (hc : c ≠ [])
    (hle : c.length + buff.length ≤ sectionBufferSize) :
    ∃ t, collectSection fresh s false buff = some (completeIn (c ++ buff), t) ∧
      t.Holds (c ++ buff) := by
  obtain ⟨t, happend, ht⟩ := h.append hle
  refine ⟨t, ?_, ht⟩
  have hpos : s.bufferLen ≠ 0 := by
    rw [h.bufferLen]
    exact fun hzero => hc (List.length_eq_zero_iff.1 hzero)
  have hfits : ¬buff.length + s.bufferLen > sectionBufferSize := by
    rw [h.bufferLen]
    omega
  rw [collectSection, if_neg (by simp [hpos])]
  dsimp only
  rw [if_neg Bool.false_ne_true, if_neg hfits, happend]
  dsimp only [bind, Option.bind]
  rw [ht.complete]

/-- Nothing is read or written outside of the buffer, whatever the payload is. -/
theorem collect_ok (fresh : Nat → UInt8) (h : s.Ok) (isStart : Bool) (buff : List UInt8) :
    ∃ skip t, collectSection fresh s isStart buff = some (skip, t) ∧ t.Ok ∧
      (skip = 0 ∨ skip ≤ 256 ∧ ∃ c, t.Holds c) := by
  cases isStart with
  | true =>
    by_cases hle : buff.length ≤ sectionBufferSize
    · obtain ⟨t, hcollect, ht⟩ := collect_start fresh s hle
      exact ⟨_, t, hcollect, .inr ⟨buff, ht⟩, .inr ⟨completeIn_le buff, buff, ht⟩⟩
    · refine ⟨0, s.start fresh, ?_, .inr ⟨[], start_holds fresh s⟩, .inl rfl⟩
      have hbig : buff.length + (s.start fresh).bufferLen > sectionBufferSize :=
        Nat.not_le.1 hle
      rw [collectSection, if_neg (by simp)]
      dsimp only
      rw [if_pos rfl, if_pos hbig]
  | false =>
    by_cases hzero : s.bufferLen = 0
    · exact ⟨0, s, by rw [collectSection, if_pos (by simp [hzero])], h, .inl rfl⟩
    · obtain rfl | ⟨c, hc⟩ := h
      · exact absurd rfl hzero
      · by_cases hle : c.length + buff.length ≤ sectionBufferSize
        · have hne : c ≠ [] := by
            rintro rfl
            exact hzero hc.bufferLen
          obtain ⟨t, hcollect, ht⟩ := collect_more fresh hc hne hle
          exact ⟨_, t, hcollect, .inr ⟨_, ht⟩, .inr ⟨completeIn_le _, _, ht⟩⟩
        · refine ⟨0, s, ?_, .inr ⟨c, hc⟩, .inl rfl⟩
          have hbig : buff.length + s.bufferLen > sectionBufferSize := by
            rw [hc.bufferLen]
            omega
          rw [collectSection, if_neg (by simp [hzero])]
          dsimp only
          rw [if_neg Bool.false_ne_true, if_pos hbig]

end MPlayer
