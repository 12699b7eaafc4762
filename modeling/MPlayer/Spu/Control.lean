import Mathlib.Data.Fin.VecNotation
import MPlayer.Spu.Assemble

/-!
# Control sequences

`spudec_process_control` goes along the control blocks of a packet.  Each block has a date, a
pointer to the next block, and commands.  The packets that it makes of them wait in a queue
until they are displayed.

Reads of the packet at its size or behind it are stopped as `bounds`.
-/

namespace MPlayer.Spu

open Lib

/-! ## Packets -/

/-- `packet_t`. -/
structure Packet where
  isDecoded : Bool
  packet : List UInt8
  dataLen : Nat
  palette : Fin 4 → Fin 16
  alpha : Fin 4 → Fin 16
  controlStart : Nat
  currentNibble : Fin 2 → Nat
  deinterlaceOddness : Fin 2
  startCol : Nat
  startRow : Nat
  width : Nat
  height : Nat
  stride : Nat
  startPts : Nat
  endPts : Nat

/-- The fields of `spudec_handle_t` that control sequences change. -/
structure Handle where
  palette : Fin 4 → Fin 16
  alpha : Fin 4 → Fin 16
  isForcedSub : Bool
  queue : List Packet

/-- The variables of `spudec_process_control` that commands change. -/
structure Locals where
  display : Bool
  startCol : Nat
  startRow : Nat
  width : Nat
  height : Nat
  stride : Nat
  startPts : Nat
  endPts : Nat
  currentNibble : Fin 2 → Nat

/-- What these variables begin with. -/
def Locals.init : Locals where
  display := false
  startCol := 0
  startRow := 0
  width := 0
  height := 0
  stride := 0
  startPts := 0
  endPts := 0
  currentNibble := fun _ => 0

/-! ## Numbers -/

/-- `UINT_MAX`. -/
def uintMax : Nat := 2 ^ 32 - 1

/-- An `int` as an `unsigned int`. -/
def toUnsigned (i : Int) : Nat := (i % 2 ^ 32).toNat

/-- The high four bits. -/
def hiNibble (b : UInt8) : Fin 16 := ⟨b.toNat / 16, Nat.div_lt_of_lt_mul b.toNat_lt⟩

/-- The low four bits. -/
def loNibble (b : UInt8) : Fin 16 := ⟨b.toNat % 16, Nat.mod_lt _ (by decide)⟩

/-- `pts100 < 0 && -pts100 >= date ? 0 : pts100 + date`. -/
def datePts (pts100 : Int) (date : Nat) : Nat :=
  if pts100 < 0 ∧ date ≤ toUnsigned (-pts100) then 0 else toUnsigned (pts100 + date)

/-- `1 - pts100 >= end_pts ? 0 : pts100 + end_pts - 1`. -/
def endDatePts (pts100 : Int) (endPts : Nat) : Nat :=
  if endPts ≤ toUnsigned (1 - pts100) then 0 else toUnsigned (pts100 + endPts - 1)

/-! ## Commands -/

/-- Four values of four bits. -/
def getNibbles (p : List UInt8) (off : Nat) : Except Halt (Fin 4 → Fin 16) := do
  let b ← fetch p (off : Nat)
  let b' ← fetch p (off + 1 : Nat)
  return ![hiNibble b, loNibble b, hiNibble b', loNibble b']

/-- The commands 0x00 and 0x01. -/
def startDisplay (pts100 : Int) (date : Nat) (forced : Bool) (s : Handle × Locals) :
    Handle × Locals :=
  ({ s.1 with isForcedSub := forced },
    { s.2 with startPts := datePts pts100 date, endPts := uintMax, display := true })

/-- The command 0x04.  During the display alpha values only grow. -/
def setAlpha (alpha : Fin 4 → Fin 16) (s : Handle × Locals) : Handle × Locals :=
  ({ s.1 with alpha := fun i => if s.2.display then max (alpha i) (s.1.alpha i) else alpha i }, s.2)

/-- The command 0x05, with two coordinates in each of the numbers. -/
def setCoords (a b : Nat) (v : Locals) : Locals :=
  let startCol := a / 2 ^ 12
  let endCol := a % 2 ^ 12
  let width := if endCol < startCol then 0 else endCol - startCol + 1
  let startRow := b / 2 ^ 12
  let endRow := b % 2 ^ 12
  { v with
    startCol := startCol
    width := width
    stride := (width + 15) / 16 * 16
    startRow := startRow
    height := if endRow < startRow then 0 else endRow - startRow }

/-- A command of this type, whose arguments begin at `off`. -/
def command (p : List UInt8) (pts100 : Int) (date off : Nat) (s : Handle × Locals) (type : UInt8) :
    Except Halt (Turn (Nat × Handle × Locals)) :=
  if type = 0xff then return .leave (off, s)
  else match type.toNat with
    | 0x00 => return .again (off, startDisplay pts100 date true s)
    | 0x01 => return .again (off, startDisplay pts100 date false s)
    | 0x02 => return .again (off, s.1, { s.2 with endPts := datePts pts100 date })
    | 0x03 => do
      let palette ← getNibbles p off
      return .again (off + 2, { s.1 with palette := palette }, s.2)
    | 0x04 => do
      let alpha ← getNibbles p off
      return .again (off + 2, setAlpha alpha s)
    | 0x05 => do
      let a ← getBe24 p off
      let b ← getBe24 p (off + 3)
      return .again (off + 6, s.1, setCoords a b s.2)
    | 0x06 => do
      let offset0 ← getBe16 p off
      let offset1 ← getBe16 p (off + 2)
      return .again (off + 4, s.1, { s.2 with currentNibble := ![2 * offset0, 2 * offset1] })
    | _ => return .leave (off, s)

/-- A turn of the loop over the commands of a block. -/
def commandTurn (p : List UInt8) (pts100 : Int) (date : Nat) (t : Nat × Handle × Locals) :
    Except Halt (Turn (Nat × Handle × Locals)) := do
  command p pts100 date (t.1 + 1) t.2 (← fetch p (t.1 : Nat))

/-- The commands from an offset on.  Each turn reads further behind, so there are no more turns than
bytes. -/
def commands (p : List UInt8) (pts100 : Int) (date off : Nat) (s : Handle × Locals) :
    Except Halt (Handle × Locals) := do
  let (_, s) ← loop (commandTurn p pts100 date) (p.length + 1) (off, s)
  return s

/-! ## Blocks -/

/-- The packet for the display. -/
def makePacket (p : List UInt8) (controlStart : Nat) (h : Handle) (v : Locals) : Packet where
  isDecoded := false
  packet := p
  dataLen := 0
  palette := h.palette
  alpha := h.alpha
  controlStart := controlStart
  currentNibble := v.currentNibble
  deinterlaceOddness := 0
  startCol := v.startCol
  startRow := v.startRow
  width := v.width
  height := v.height
  stride := v.stride
  startPts := v.startPts
  endPts := v.endPts

/-- The end of the display, which is the next block if no command says it. -/
def displayEnd (p : List UInt8) (pts100 : Int) (startOff nextOff : Nat) (v : Locals) :
    Except Halt Nat :=
  if v.endPts = uintMax ∧ startOff ≠ nextOff then do
    let date ← getBe16 p nextOff
    return endDatePts pts100 (date * 1024)
  else return v.endPts

/-- A packet is queued, unless its display has ended before it begins. -/
def queueBlock (p : List UInt8) (controlStart : Nat) (s : Handle × Locals) (endPts : Nat) :
    Handle × Locals :=
  let v := { s.2 with endPts := endPts }
  if 0 < endPts then ({ s.1 with queue := s.1.queue ++ [makePacket p controlStart s.1 v] }, v)
  else (s.1, v)

/-- What is done behind the commands of a block. -/
def endBlock (p : List UInt8) (pts100 : Int) (controlStart startOff nextOff : Nat)
    (s : Handle × Locals) : Except Halt (Handle × Locals) :=
  if s.2.display then do
    let endPts ← displayEnd p pts100 startOff nextOff s.2
    return queueBlock p controlStart s endPts
  else return s

/-- A turn of the loop over the blocks, from `start_off` and `next_off`. -/
def blockTurn (p : List UInt8) (pts100 : Int) (controlStart : Nat) :
    (Nat × Nat) × Handle × Locals → Except Halt (Turn ((Nat × Nat) × Handle × Locals))
  | ((startOff, nextOff), s) =>
    if startOff = nextOff then return .leave ((startOff, nextOff), s)
    else do
      let startOff := nextOff
      let date ← getBe16 p startOff
      let nextOff ← getBe16 p (startOff + 2)
      let s ← commands p pts100 (date * 1024) (startOff + 4) s
      let s ← endBlock p pts100 controlStart startOff nextOff s
      return .again ((startOff, nextOff), s)

/-- `spudec_process_control`.  Two blocks begin at different bytes, so if there are more turns than
bytes, the loop doesn't end. -/
def processControl (h : Handle) (p : List UInt8) (pts100 : Int) : Except Halt Handle := do
  let controlStart ← getBe16 p 2
  let (_, h, _) ← loop (blockTurn p pts100 controlStart) (p.length + 2)
    ((0, controlStart), h, Locals.init)
  return h

end MPlayer.Spu
