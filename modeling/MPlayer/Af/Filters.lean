import MPlayer.Lib.Halting

/-!
# Chains of audio filters

A filter is known by how it answers `AF_CONTROL_REINIT`, and by the format it says it delivers
(`data`).  `af_reinit` asks the filters of a chain one after the other.  Where a filter needs
another format it inserts the filters `channels` and `format` in front, and asks again.

The memory of filters is never exhausted.  What a filter is asked for is the format that the one in
front of it delivers.
-/

namespace MPlayer.Af

open Lib

/-- `af_data_t` without the audio. -/
structure AfData where
  rate : Int
  nch : Int
  format : BitVec 32
  bps : Int
  deriving DecidableEq

/-- The answers to `AF_CONTROL_REINIT`.  `AF_OK` comes with the format that the filter delivers,
`AF_FALSE` with the one that it asks for. -/
inductive Answer where
  | ok (data : AfData)
  | needs (requested : AfData)
  | detach
  | error
  deriving DecidableEq

/-- `AF_INIT_AUTO` to `AF_INIT_FORCE`. -/
inductive InitType where
  | auto | slow | fast | force
  deriving DecidableEq

/-- `af_instance_t`.  `reinit` is the answer to `AF_CONTROL_REINIT`.  What an answer other than
`AF_OK` leaves in `data` is never read. -/
structure AfInstance where
  id : Nat
  name : String
  reinit : AfData → Answer
  data : AfData

/-! ## Sample formats -/

def formatBitsMask : BitVec 32 := 7 <<< 3

def formatMuLaw : BitVec 32 := 1 <<< 6

def formatALaw : BitVec 32 := 2 <<< 6

def formatAc3 : BitVec 32 := 4 <<< 6

def formatIec61937 : BitVec 32 := 6 <<< 6

def formatSpecialMask : BitVec 32 := 7 <<< 6

def formatIsAc3 (format : BitVec 32) : Bool := format &&& formatSpecialMask == formatAc3

def formatIsIec61937 (format : BitVec 32) : Bool :=
  format &&& formatSpecialMask == formatAc3 || format &&& formatSpecialMask == formatIec61937

/-- `af_fmt2bits`. -/
def fmt2bits (format : BitVec 32) : Int :=
  if formatIsAc3 format then 16 else (format &&& formatBitsMask).toInt + 8

/-- `af_bits2fmt`. -/
def bits2fmt (bits : Int) : BitVec 32 := BitVec.ofInt 32 (bits.tdiv 8 - 1) <<< 3

/-- `check_bps`. -/
def checkBps (bps : Int) : Bool := bps == 4 || bps == 3 || bps == 2 || bps == 1

/-- `check_format`. -/
def checkFormat (format : BitVec 32) : Bool :=
  format &&& formatSpecialMask == 0 || format &&& formatSpecialMask == formatMuLaw ||
    format &&& formatSpecialMask == formatALaw

/-! ## The filters that are inserted -/

/-- The filter `channels` that was set to a number of channels. -/
def channels (id : Nat) (nch : Int) : AfInstance where
  id := id
  name := "channels"
  reinit := fun arg =>
    if nch = arg.nch then .detach
    -- without channels there are no routes
    else if arg.nch < 1 then .error
    else .ok { arg with nch := nch }
  data := ⟨0, nch, 0, 0⟩

/-- The filter `format` that was set to a format. -/
def format (id : Nat) (fmt : BitVec 32) (bps : Int) : AfInstance where
  id := id
  name := "format"
  reinit := fun arg =>
    if fmt = arg.format ∧ bps = arg.bps then .detach
    else
      let supportedAc3 :=
        if formatIsAc3 fmt then formatIsAc3 arg.format
        else if formatIsIec61937 fmt then formatIsIec61937 arg.format
        else false
      if supportedAc3 ∨
          checkBps arg.bps ∧ checkFormat arg.format ∧ checkBps bps ∧ checkFormat fmt then
        .ok { arg with format := fmt, bps := bps }
      else .error
  data := ⟨0, 0, fmt, bps⟩

/-! ## `af_reinit` -/

/-- A chain that is reinitialized: the filters in front of the cursor, the last one first, and the
ones from the cursor on.  `fresh` is the name of the next filter. -/
structure Pass where
  input : AfData
  mode : InitType
  before : List AfInstance
  rest : List AfInstance
  fresh : Nat

namespace Pass

/-- The format that the filter at the cursor gets. -/
def current (p : Pass) : AfData :=
  match p.before with
  | [] => p.input
  | af :: _ => af.data

/-- `af_prepend` at the cursor. -/
def prepend (p : Pass) (new : AfInstance) : Pass :=
  { p with before := new :: p.before, fresh := p.fresh + 1 }

/-- The return value and the chain, or the next turn. -/
abbrev Turn := Progress (Int × Pass) Pass

/-- The end of an insertion: the new filter is initialized. -/
def insert (p : Pass) (new : AfInstance) : Turn :=
  match new.reinit p.current with
  | .ok data => .next (p.prepend { new with data := data })
  | .needs _ => .done (0, p.prepend new)
  | .detach => .done (2, p.prepend new)
  | .error => .done (-2, p.prepend new)

/-- The filter that is inserted for what the filter at the cursor asks for.  Behind a change of the
channels `in` is what the new filter gets, so that the format is not changed in the same turn. -/
def convert (p : Pass) (requested : AfData) : Turn :=
  if p.current.nch ≠ requested.nch then
    if requested.nch ≤ 0 ∨ 8 < requested.nch then .done (-2, p.prepend (channels p.fresh 0))
    else p.insert (channels p.fresh requested.nch)
  else if p.current.format ≠ requested.format then
    let fmt := requested.format ||| bits2fmt (requested.bps * 8)
    if !formatIsAc3 fmt && !checkFormat fmt then .done (-2, p.prepend (format p.fresh 0 0))
    else p.insert (format p.fresh fmt ((fmt2bits fmt).tdiv 8))
  else .done (-2, p)

/-- `af_dummy`, which answers every format. -/
def dummy (id : Nat) : AfInstance where
  id := id
  name := "dummy"
  reinit := .ok
  data := ⟨0, 0, 0, 0⟩

/-- `af_append` behind the first filter, for a pass without a filter. -/
def appendDummy (p : Pass) : Pass :=
  let before := p.before.dropLast ++ dummy p.fresh :: p.before.getLast?.toList
  { p with before := before, fresh := p.fresh + 1 }

/-- The condition of the loop. -/
def again (p : Pass) : Turn := if p.rest = [] then .done (1, p) else .next p

/-- A turn of `af_reinit`. -/
def turn (p : Pass) : Turn :=
  match p.rest with
  | [] => .done (-2, p.appendDummy)
  | af :: rest =>
    match af.reinit p.current with
    | .ok data =>
      again { p with before := { af with data := data } :: p.before, rest := rest }
    | .needs requested => if p.mode = .force then .done (-2, p) else p.convert requested
    | .detach => if p.mode = .force then again p else again { p with rest := rest }
    | .error => .done (-2, p)

variable {p : Pass} {af : AfInstance} {rest : List AfInstance}

theorem turn_ok {data : AfData} (hrest : p.rest = af :: rest)
    (h : af.reinit p.current = .ok data) :
    p.turn = again { p with before := { af with data := data } :: p.before, rest := rest } := by
  rw [turn, hrest]
  dsimp only
  rw [h]

theorem turn_needs {requested : AfData} (hrest : p.rest = af :: rest)
    (h : af.reinit p.current = .needs requested) (hmode : p.mode ≠ .force) :
    p.turn = p.convert requested := by
  rw [turn, hrest]
  dsimp only
  rw [h]
  exact if_neg hmode

theorem turn_detach (hrest : p.rest = af :: rest) (h : af.reinit p.current = .detach)
    (hmode : p.mode ≠ .force) : p.turn = again { p with rest := rest } := by
  rw [turn, hrest]
  dsimp only
  rw [h]
  exact if_neg hmode

theorem turn_error (hrest : p.rest = af :: rest) (h : af.reinit p.current = .error) :
    p.turn = .done (-2, p) := by
  rw [turn, hrest]
  dsimp only
  rw [h]

end Pass

end MPlayer.Af
