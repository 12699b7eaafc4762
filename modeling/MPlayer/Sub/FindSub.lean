import MPlayer.Lib.Except
import Mathlib.Data.List.Basic
import Mathlib.Algebra.Group.Int.Defs
import Mathlib.Algebra.Group.Nat.Defs

/-!
# Which subtitle is shown

`find_sub` shows the subtitle of a moment, and `step_sub` moves on by some subtitles.  Both keep the
index of the last one they looked at for all subtitle files.  `find_sub` looks there first, and also
keeps the last range of time that has no subtitle.

The moment is an `int`, and `start` and `end` are `unsigned long`, with 64 bits: a comparison makes
the moment one, too.  `subs[k]` outside of the array is undefined.  In `step_sub` the moment comes
from floats and is a parameter, and an `int` that overflows wraps.
-/

namespace MPlayer

open Lib

/-! ## Subtitles -/

/-- The times of a `subtitle`; `stop` is the field `end`. -/
structure Subtitle where
  start : Nat
  stop : Nat
deriving DecidableEq

/-- A `sub_data`: where it is, and the subtitles in it, of which `sub_num` is an `int`. -/
structure SubData where
  address : Nat
  subtitles : List Subtitle
  num_lt : subtitles.length < 2 ^ 31
deriving DecidableEq

/-- An `int` in a comparison with an `unsigned long`. -/
def toULong (key : Int) : Nat := (key % 2 ^ 64).toNat

/-- A number that is stored in an `int`. -/
def wrapInt (n : Int) : Int := (n + 2 ^ 31) % 2 ^ 32 - 2 ^ 31

/-- The moment is in the time of the subtitle. -/
def Subtitle.Shows (v : Subtitle) (key : Int) : Prop :=
  v.start ≤ toULong key ∧ toULong key ≤ v.stop

instance (v : Subtitle) (key : Int) : Decidable (v.Shows key) :=
  inferInstanceAs (Decidable (_ ∧ _))

/-- `subs[k]`. -/
def SubData.sub (subd : SubData) (k : Int) : Except Fault Subtitle :=
  match if 0 ≤ k then subd.subtitles[k.toNat]? else none with
  | some v => .ok v
  | none => .error .undefined

/-- The variables that the calls share. -/
structure FindSub where
  currentSub : Int
  nosubRangeStart : Int
  nosubRangeEnd : Int
  lastSubData : Option Nat
  voSub : Option Subtitle
deriving DecidableEq

namespace FindSub

/-- The variables when the program starts. -/
def init : FindSub := ⟨0, -1, -1, none, none⟩

/-! ## `find_sub` -/

/-- A new file has no range without subtitles. -/
def changed (subd : SubData) (s : FindSub) : FindSub :=
  if s.lastSubData = some subd.address then s
  else
    { s with
      lastSubData := some subd.address
      nosubRangeStart := -1
      nosubRangeEnd := -1 }

/-- What is shown is still right. -/
def unchanged (key : Int) (s : FindSub) : Bool :=
  match s.voSub with
  | some v => decide (v.Shows key)
  | none => decide (s.nosubRangeStart < key ∧ key < s.nosubRangeEnd)

/-- The moment is between `subs[current_sub]` and the subtitle behind it. -/
def inGap (subd : SubData) (key : Int) (s : FindSub) : Except Fault Bool := do
  let v ← subd.sub s.currentSub
  if v.stop < toULong key then do
    let w ← subd.sub (s.currentSub + 1)
    return decide (toULong key < w.start)
  else return false

/-- The range between `subs[current_sub]` and the subtitle behind it, where nothing is shown. -/
def noSub (subd : SubData) (s : FindSub) : Except Fault FindSub := do
  let v ← subd.sub s.currentSub
  let w ← subd.sub (s.currentSub + 1)
  return { s with
    nosubRangeStart := wrapInt v.stop
    nosubRangeEnd := wrapInt w.start
    voSub := none }

/-- The loop of the search: the index that it looked at last, the subtitle there, and whether that
is the right one.  It takes at most `sub_num` turns. -/
def searchLoop (subd : SubData) (key : Int) :
    Nat → Int → Int → Int × Option Subtitle → Except Fault (Int × Option Subtitle × Bool)
  | 0, _, _, (cur, v) => .ok (cur, v, false)
  | turns + 1, i, j, (cur, v) =>
    if j < i then .ok (cur, v, false)
    else do
      let cur := (i + j + 1) / 2
      let v ← subd.sub cur
      if toULong key < v.start then searchLoop subd key turns i (cur - 1) (cur, some v)
      else if v.stop < toULong key then searchLoop subd key turns (cur + 1) j (cur, some v)
      else .ok (cur, some v, true)

/-- What follows a search that looked at `v` last and found nothing. -/
def notFound (subd : SubData) (key : Int) (v : Subtitle) (s : FindSub) : Except Fault FindSub :=
  if toULong key < v.start then
    if s.currentSub ≤ 0 then
      .ok { s with nosubRangeStart := key - 1, nosubRangeEnd := wrapInt v.start, voSub := none }
    else do
      let s := { s with currentSub := s.currentSub - 1 }
      if ← inGap subd key s then noSub subd s else return { s with voSub := none }
  else if toULong key ≤ v.stop then .ok { s with voSub := none }
  else if subd.subtitles.length ≤ s.currentSub + 1 then
    .ok { s with nosubRangeStart := wrapInt v.stop, nosubRangeEnd := 0x7FFFFFFF, voSub := none }
  else do
    if ← inGap subd key s then noSub subd s else return { s with voSub := none }

/-- The search in all subtitles. -/
def search (subd : SubData) (key : Int) (s : FindSub) : Except Fault FindSub := do
  let (cur, v, found) ← searchLoop subd key subd.subtitles.length 0 (subd.subtitles.length - 1)
    (s.currentSub, none)
  let s := { s with currentSub := cur }
  match v with
  | none => .error .undefined
  | some v => if found then return { s with voSub := some v } else notFound subd key v s

/-- The search that first looks at the next subtitle. -/
def searchNext (subd : SubData) (key : Int) (s : FindSub) : Except Fault FindSub :=
  if 0 ≤ s.currentSub ∧ s.currentSub + 1 < subd.subtitles.length then do
    if ← inGap subd key s then noSub subd s
    else do
      let s := { s with currentSub := s.currentSub + 1 }
      let v ← subd.sub s.currentSub
      if v.Shows key then return { s with voSub := some v } else search subd key s
  else search subd key s

/-- `find_sub`. -/
def findSub (subd : SubData) (key : Int32) (s : FindSub) : Except Fault FindSub :=
  if subd.subtitles = [] then .ok s
  else
    let s := s.changed subd
    if s.unchanged key.toInt then .ok s
    else if key.toInt ≤ 0 then .ok { s with voSub := none }
    else s.searchNext subd key.toInt

/-! ## `step_sub` -/

/-- The movement without the subtitle that is not shown yet, or not any more. -/
def stepMovement (subd : SubData) (key movement : Int32) (s : FindSub) : Except Fault Int := do
  let m ←
    if 0 < movement.toInt then do
      let v ← subd.sub s.currentSub
      pure (if toULong key.toInt < v.start then movement.toInt - 1 else movement.toInt)
    else pure movement.toInt
  if m < 0 then do
    let v ← subd.sub s.currentSub
    return if v.stop ≤ toULong key.toInt then m + 1 else m
  else return m

/-- The movement that ends inside of the file. -/
def clampMovement (subd : SubData) (s : FindSub) (m : Int) : Int :=
  let m := if wrapInt (s.currentSub + m) < 0 then 0 - s.currentSub else m
  if subd.subtitles.length ≤ wrapInt (s.currentSub + m) then
    subd.subtitles.length - s.currentSub - 1
  else m

/-- `step_sub`. -/
def stepSub (subd : SubData) (key movement : Int32) (s : FindSub) : Except Fault FindSub := do
  let m ← stepMovement subd key movement s
  let s := { s with currentSub := wrapInt (s.currentSub + clampMovement subd s m) }
  let _ ← subd.sub s.currentSub
  return s

/-! ## Calls -/

/-- A call of one of the functions. -/
inductive Call where
  | findSub (subd : SubData) (key : Int32)
  | stepSub (subd : SubData) (key movement : Int32)
deriving DecidableEq

/-- What a call does. -/
def Call.run : Call → FindSub → Except Fault FindSub
  | .findSub subd key, s => s.findSub subd key
  | .stepSub subd key movement, s => s.stepSub subd key movement

end FindSub

end MPlayer
