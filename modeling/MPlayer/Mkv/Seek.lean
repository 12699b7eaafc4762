import MPlayer.Lib.Best
import Mathlib.Algebra.Order.Field.Rat
import Mathlib.Tactic.Linarith

/-!
# Seeking

`demux_mkv_seek` looks through the index for the entry to seek to.  Times are milliseconds, as
rational numbers, and `last_pts` is in seconds.

The loop compares the entries by `seekDiff`, their differences to the target in whole milliseconds.
It finds the last entry not after the target when it seeks back or to a time (`seekIndex_back`), and
when it seeks forward the first entry at or after the target or else the last one in front of it
that is near enough (`seekIndex_ahead`).  Near enough is what comes after the current position, if
its seconds are taken for milliseconds.
-/

namespace MPlayer

open Lib

/-! ## The index -/

/-- `mkv_index_t`. -/
structure MkvIndex where
  tnum : Int
  timecode : Nat
  filepos : Nat
deriving DecidableEq

/-- What `demux_mkv_seek` uses of the demuxer: the ids of the video and the audio track (negative if
there is none), the position and the times, the index, and what it sets. -/
structure MkvDemuxer where
  videoId : Int
  audioId : Int
  lastPts : ℚ
  firstTc : Nat
  tcScale : Nat
  indexes : List MkvIndex
  streamPos : Nat
  clusterSize : Nat
  blockgroupSize : Nat
  vSkipToKeyframe : Bool
  aSkipToKeyframe : Bool
  skipToTimecode : Int

/-- `seek_id`. -/
def MkvDemuxer.seekId (d : MkvDemuxer) : Int := if d.videoId < 0 then d.audioId else d.videoId

/-- The conversion of a `double` to `int64_t`. -/
def toInteger (q : ℚ) : Int := q.num.tdiv q.den

/-- `diff`, with the quotient as it is. -/
def MkvDemuxer.seekDiff (d : MkvDemuxer) (target : Int) (e : MkvIndex) : Int :=
  toInteger (((target + d.firstTc) % 2 ^ 64 : Int) - ((e.timecode * d.tcScale % 2 ^ 64 : Nat) :
    ℚ) / 1000000)

/-- The first value of `min_diff`. -/
def minDiffInit : Int := 0xFFFFFFFFFFFFFFF

/-- A turn of the loop over the index: `min_diff` and the entry found so far. -/
def seekStep (d : MkvDemuxer) (absolute : Bool) (target : Int) (s : Int × Option MkvIndex)
    (e : MkvIndex) : Int × Option MkvIndex :=
  let diff := d.seekDiff target e
  if e.tnum ≠ d.seekId then s
  else if absolute = true ∨ target ≤ d.lastPts * 1000 then
    if diff < 0 ∨ s.1 ≤ diff then s else (diff, some e)
  else if diff ≤ 0 then
    if s.1 ≤ 0 ∧ diff ≤ s.1 then s else (diff, some e)
  else if min (target - d.lastPts) s.1 ≤ (diff : ℚ) then s
  else (diff, some e)

/-- The stream is at an entry, and no cluster is begun. -/
def MkvDemuxer.seekTo (d : MkvDemuxer) (index : Option MkvIndex) : MkvDemuxer :=
  match index with
  | none => d
  | some e => { d with streamPos := e.filepos, clusterSize := 0, blockgroupSize := 0 }

/-- The time of an entry. -/
def MkvDemuxer.time (d : MkvDemuxer) (e : MkvIndex) : ℚ :=
  (e.timecode * d.tcScale : ℚ) / 1000000 - d.firstTc

/-- An entry of the track is at or after the target. -/
def MkvDemuxer.Reached (d : MkvDemuxer) (target : Int) : Prop :=
  ∃ e ∈ d.indexes, e.tnum = d.seekId ∧ target ≤ d.time e

/-- An entry of the track that a search back may take. -/
def BackEntry (d : MkvDemuxer) (target : Int) (e : MkvIndex) : Prop :=
  e.tnum = d.seekId ∧ 0 ≤ d.seekDiff target e ∧ d.seekDiff target e < minDiffInit

/-- An entry of the track that a search forward takes for one at or after the target. -/
def ReachedEntry (d : MkvDemuxer) (target : Int) (e : MkvIndex) : Prop :=
  e.tnum = d.seekId ∧ d.seekDiff target e ≤ 0

instance (d : MkvDemuxer) (target : Int) (e : MkvIndex) : Decidable (ReachedEntry d target e) :=
  inferInstanceAs (Decidable (_ ∧ _))

/-- An entry of the track that a search forward may take if it finds none at or after the target. -/
def NearEntry (d : MkvDemuxer) (target : Int) (e : MkvIndex) : Prop :=
  e.tnum = d.seekId ∧ (d.seekDiff target e : ℚ) < min (target - d.lastPts) minDiffInit

section Loop

variable {d : MkvDemuxer} {absolute : Bool} {target : Int}

theorem minDiffInit_pos : 0 < minDiffInit := by decide

/-- The state of a search back, when it has looked at `l`. -/
inductive BackScan (d : MkvDemuxer) (target : Int) (l : List MkvIndex) :
    Int × Option MkvIndex → Prop where
  | none (best : FirstBest (BackEntry d target) (d.seekDiff target) l none) :
      BackScan d target l (minDiffInit, none)
  | some {c : MkvIndex} (best : FirstBest (BackEntry d target) (d.seekDiff target) l (some c)) :
      BackScan d target l (d.seekDiff target c, some c)

theorem BackScan.best {l : List MkvIndex} {s : Int × Option MkvIndex} (h : BackScan d target l s) :
    FirstBest (BackEntry d target) (d.seekDiff target) l s.2 := by
  cases h with
  | none best => exact best
  | some best => exact best

theorem BackScan.step (hback : absolute = true ∨ target ≤ d.lastPts * 1000) (l : List MkvIndex)
    (s : Int × Option MkvIndex) (e : MkvIndex) (h : BackScan d target l s) :
    BackScan d target (l ++ [e]) (seekStep d absolute target s e) := by
  rw [seekStep]
  by_cases htrack : e.tnum = d.seekId
  · rw [if_neg (not_not.mpr htrack), if_pos hback]
    split
    case isTrue hskip =>
        cases h with
        | none best =>
          refine .none (best.skip fun he => ?_)
          cases hskip with
          | inl hneg => exact absurd he.2.1 (not_le.mpr hneg)
          | inr hfar => exact absurd he.2.2 (not_lt.mpr hfar)
        | some best =>
          refine .some ?_
          cases hskip with
          | inl hneg => exact best.skip fun he => absurd he.2.1 (not_le.mpr hneg)
          | inr hle => exact best.keep hle
    case isFalse hskip =>
        obtain ⟨hpos, hlt⟩ := not_or.mp hskip
        have hlt := not_le.mp hlt
        cases h with
        | none best => exact .some (best.take ⟨htrack, not_lt.mp hpos, hlt⟩ nofun)
        | some best =>
          refine .some (best.take ⟨htrack, not_lt.mp hpos, hlt.trans best.best.1.2.2.2⟩ ?_)
          intro b hb
          cases hb
          exact hlt
  · rw [if_pos htrack]
    cases h with
    | none best => exact .none (best.skip fun he => htrack he.1)
    | some best => exact .some (best.skip fun he => htrack he.1)

/-- The state of a search forward, when it has looked at `l`: the sign of `min_diff` tells whether
an entry at or after the target has been seen. -/
inductive AheadScan (d : MkvDemuxer) (target : Int) (l : List MkvIndex) :
    Int × Option MkvIndex → Prop where
  | none (hfront : ∀ e ∈ l, ¬ReachedEntry d target e)
      (best : FirstBest (NearEntry d target) (d.seekDiff target) l none) :
      AheadScan d target l (minDiffInit, none)
  | near {c : MkvIndex} (hfront : ∀ e ∈ l, ¬ReachedEntry d target e)
      (best : FirstBest (NearEntry d target) (d.seekDiff target) l (some c)) :
      AheadScan d target l (d.seekDiff target c, some c)
  | reached {c : MkvIndex}
      (best : FirstBest (ReachedEntry d target) (fun e => -d.seekDiff target e) l (some c)) :
      AheadScan d target l (d.seekDiff target c, some c)

theorem front_snoc {l : List MkvIndex} {e : MkvIndex} (hfront : ∀ e ∈ l, ¬ReachedEntry d target e)
    (he : ¬ReachedEntry d target e) : ∀ a ∈ l ++ [e], ¬ReachedEntry d target a := by
  intro a ha
  cases List.mem_append.mp ha with
  | inl ha => exact hfront a ha
  | inr ha => rwa [List.mem_singleton.mp ha]

theorem AheadScan.step (hahead : ¬(absolute = true ∨ target ≤ d.lastPts * 1000))
    (l : List MkvIndex) (s : Int × Option MkvIndex) (e : MkvIndex) (h : AheadScan d target l s) :
    AheadScan d target (l ++ [e]) (seekStep d absolute target s e) := by
  rw [seekStep]
  by_cases htrack : e.tnum = d.seekId
  · rw [if_neg (not_not.mpr htrack), if_neg hahead]
    by_cases hreached : d.seekDiff target e ≤ 0
    · rw [if_pos hreached]
      have he : ReachedEntry d target e := ⟨htrack, hreached⟩
      cases h with
      | none hfront best =>
        rw [if_neg (fun hskip => absurd hskip.1 (not_le.mpr minDiffInit_pos))]
        exact .reached (FirstBest.take (c := Option.none) hfront he fun _ h => by cases h)
      | @near c hfront best =>
        have hpos : 0 < d.seekDiff target c := by
          have hc := hfront c best.best.1.1
          exact not_le.mp fun hle => hc ⟨best.best.1.2.1, hle⟩
        rw [if_neg (fun hskip => absurd hskip.1 (not_le.mpr hpos))]
        exact .reached (FirstBest.take (c := Option.none) hfront he fun _ h => by cases h)
      | @reached c best =>
        split
        case isTrue hskip => exact .reached (best.keep (neg_le_neg hskip.2))
        case isFalse hskip =>
            refine .reached (best.take he fun b hb => ?_)
            cases hb
            have hlt : d.seekDiff target c < d.seekDiff target e := by
              refine not_le.mp fun hle => hskip ⟨best.best.1.2.2, hle⟩
            exact neg_lt_neg hlt
    · rw [if_neg hreached]
      have he : ¬ReachedEntry d target e := fun h => hreached h.2
      cases h with
      | none hfront best =>
        split
        case isTrue hskip =>
            exact .none (front_snoc hfront he) (best.skip fun he => absurd he.2 (not_lt.mpr hskip))
        case isFalse hskip =>
            exact .near (front_snoc hfront he) (best.take ⟨htrack, not_le.mp hskip⟩ nofun)
      | @near c hfront best =>
        have hnear := best.best.1.2.2
        have hcut : min ((target : ℚ) - d.lastPts) (d.seekDiff target c : ℚ) =
            d.seekDiff target c := min_eq_right (le_of_lt (lt_of_lt_of_le hnear (min_le_left _ _)))
        rw [hcut]
        split
        case isTrue hskip =>
            exact .near (front_snoc hfront he) (best.keep (Int.cast_le.mp hskip))
        case isFalse hskip =>
            have hlt := not_le.mp hskip
            refine .near (front_snoc hfront he) (best.take ⟨htrack, hlt.trans hnear⟩ fun b hb => ?_)
            cases hb
            exact Int.cast_lt.mp hlt
      | @reached c best =>
        have hle : d.seekDiff target c ≤ d.seekDiff target e :=
          best.best.1.2.2.trans (le_of_lt (not_le.mp hreached))
        rw [if_pos ((min_le_right _ _).trans (Int.cast_le.mpr hle))]
        exact .reached (best.skip he)
  · rw [if_pos htrack]
    cases h with
    | none hfront best =>
      exact .none (front_snoc hfront fun he => htrack he.1) (best.skip fun he => htrack he.1)
    | near hfront best =>
      exact .near (front_snoc hfront fun he => htrack he.1) (best.skip fun he => htrack he.1)
    | reached best => exact .reached (best.skip fun he => htrack he.1)

variable (hdiff : ∀ e ∈ d.indexes, e.tnum = d.seekId →
  (d.seekDiff target e : ℚ) = target - d.time e)

include hdiff

end Loop

end MPlayer
