import MPlayer.Spu.Picture

/-!
# Packets on the display

`spudec_process_data` decodes the runs of an RLE packet.  The even and the odd lines come from
two places in the packet, and a run has up to four nibbles.  `spudec_heartbeat` displays the
packets of the queue.
-/

namespace MPlayer.Spu

open Lib

/-! ## Runs -/

/-- The variables of `spudec_process_data`, with the fields of the packet that change. -/
structure Decoding where
  currentNibble : Fin 2 → Nat
  oddness : Fin 2
  x : Nat
  y : Nat
  dst : Nat
  palImage : List UInt8

namespace Decoding

/-- `get_nibble`, from the data of a packet. -/
def getNibble (data : List UInt8) (controlStart : Nat) (d : Decoding) :
    Except Halt (Nat × Decoding) :=
  let n := d.currentNibble d.oddness
  if controlStart ≤ n / 2 then return (0, d)
  else do
    let b ← fetch data (n / 2 : Nat)
    let nib := if n % 2 = 0 then b.toNat / 16 else b.toNat % 16
    return (nib, { d with currentNibble := Function.update d.currentNibble d.oddness (n + 1) })

/-- A further nibble of a run. -/
def shiftNibble (data : List UInt8) (controlStart rle : Nat) (d : Decoding) :
    Except Halt (Nat × Decoding) := do
  let (nib, d) ← d.getNibble data controlStart
  return (rle * 16 + nib, d)

/-- The nibbles of a run. -/
def getRle (data : List UInt8) (controlStart : Nat) (d : Decoding) : Except Halt (Nat × Decoding) :=
    do
  let (rle, d) ← d.getNibble data controlStart
  if rle < 4 then do
    let (rle, d) ← if rle = 0 then do
        let (rle, d) ← d.shiftNibble data controlStart rle
        if rle < 4 then d.shiftNibble data controlStart rle else pure (rle, d)
      else pure (rle, d)
    d.shiftNibble data controlStart rle
  else return (rle, d)

/-- `next_line`. -/
def nextLine (d : Decoding) : Decoding :=
  let n := d.currentNibble d.oddness
  { d with
    currentNibble := Function.update d.currentNibble d.oddness (if n % 2 = 1 then n + 1 else n)
    oddness := d.oddness + 1 }

/-- `memset(dst, color, len)`, and `dst += len`. -/
def fill (color : UInt8) (len : Nat) (d : Decoding) : Except Halt Decoding :=
  if len = 0 then .ok d
  else if d.dst + len ≤ d.palImage.length then
    .ok { d with
      palImage :=
        d.palImage.take d.dst ++ (List.replicate len color ++ d.palImage.drop (d.dst + len))
      dst := d.dst + len }
  else .error .bounds

/-- The pixels of a run.  Behind the end of the line they are dropped, and a run of length zero goes
to the end of the line. -/
def putRun (palWidth rle : Nat) (d : Decoding) : Except Halt Decoding :=
  let color := UInt8.ofNat (3 - rle % 4)
  let len := rle / 4
  let x := d.x + len
  if len = 0 ∨ palWidth ≤ x then
    -- The sum is an `unsigned int`.
    let len := (len + palWidth + 2 ^ 32 - x) % 2 ^ 32
    let d := d.nextLine
    fill color len { d with x := 0, y := d.y + 1 }
  else fill color len { d with x := x }

/-- A turn of the loop over the runs. -/
def turn (data : List UInt8) (controlStart palWidth palHeight limit0 limit1 : Nat) (d : Decoding) :
    Except Halt (Turn Decoding) :=
  if d.currentNibble 0 < limit0 ∧ d.currentNibble 1 < limit1 ∧ d.y < palHeight then do
    let (rle, d) ← d.getRle data controlStart
    let d ← d.putRun palWidth rle
    return .again d
  else return .leave d

end Decoding

namespace Picture

/-- `limit0` and `limit1`. -/
def limits (packet : Packet) : Nat × Nat :=
  if packet.currentNibble 1 < packet.currentNibble 0 then
    (2 * packet.controlStart, packet.currentNibble 0)
  else (packet.currentNibble 1, 2 * packet.controlStart)

/-- The loop over the runs of a packet.  A turn goes further in a line or to the next one. -/
def decodeRuns (packet : Packet) (palImage : List UInt8) : Except Halt Decoding :=
  loop (Decoding.turn packet.packet packet.controlStart packet.width packet.height
      (limits packet).1 (limits packet).2)
    (packet.height * (packet.width + 1) + 1)
    ⟨packet.currentNibble, packet.deinterlaceOddness, 0, 0, 0, palImage⟩

/-- What `spudec_process_data` takes from the packet. -/
def setPacket (s : Picture) (packet : Packet) : Picture :=
  { s with
    palStartCol := packet.startCol
    palStartRow := packet.startRow
    palHeight := packet.height
    palWidth := packet.width
    stride := packet.stride
    palette := packet.palette
    alpha := packet.alpha }

/-- `spudec_process_data`. -/
def processData (env : Env) (s : Picture) (packet : Packet) : Except Halt Picture :=
  let s := s.allocImage env packet.stride packet.height
  if s.planes.isNone then return s
  else do
    let s := s.setPacket packet
    let d ← decodeRuns packet s.palMemory
    let s := { s with palImage := s.palImage.map fun _ => d.palImage }
    let (s, _) ← s.applyPaletteCrop env 0 0 s.palWidth s.palHeight
    return s

/-! ## Palettes -/

/-- `compute_palette`. -/
def computePalette (s : Picture) (packet : Packet) : Picture :=
  let used := (List.finRange 16).filter fun color =>
    ∃ i, packet.alpha i ≠ 0 ∧ packet.palette i = color
  let cused := used.length
  if cused = 0 then s
  else
    let start : Int := if cused = 1 then 0x80 else s.fontStartLevel
    let step : Int := if cused = 1 then 0 else (0xf0 - s.fontStartLevel).tdiv (cused - 1)
    -- The colours that are assigned so far, and the next grey value.
    let assign (t : (Fin 16 → UInt32) × List (Fin 16) × Int) (i : Fin 4) :=
      let color := packet.palette i
      if packet.alpha i ≠ 0 ∧ color ∉ t.2.1 then
        (Function.update t.1 color (UInt32.ofNat (toUnsigned (t.2.2 * 2 ^ 16))), color :: t.2.1,
          t.2.2 + step)
      else t
    { s with globalPalette := ((List.finRange 4).foldl assign (s.globalPalette, [], start)).1 }

/-! ## The display -/

/-- The memory of a packet of `spudec_set_paletted`. -/
def decodedPlanes (packet : Packet) : Option Planes :=
  if h : packet.packet.length = 2 * (packet.stride * packet.height) then
    if packet.packet = [] then none
    else some ⟨packet.packet.take (packet.stride * packet.height),
      packet.packet.drop (packet.stride * packet.height), by
        rw [List.length_take, List.length_drop, h]
        omega⟩
  else none

/-- A packet of `spudec_set_paletted` is displayed. -/
def showDecoded (s : Picture) (packet : Packet) : Picture :=
  { s with
    imageSize := packet.dataLen
    planes := decodedPlanes packet
    width := packet.width
    height := packet.height
    stride := packet.stride
    startCol := packet.startCol
    startRow := packet.startRow
    scaledFrameWidth := 0
    scaledFrameHeight := 0 }

/-- An RLE packet is displayed. -/
def showRle (env : Env) (s : Picture) (packet : Packet) : Except Halt Picture :=
  let s := if s.autoPalette then s.computePalette packet else s
  s.processData env packet

/-- A packet is displayed. -/
def display (env : Env) (s : Picture) (packet : Packet) : Except Halt Picture :=
  let s := { s with startPts := packet.startPts, endPts := packet.endPts }
  let shown := if packet.isDecoded then .ok (s.showDecoded packet) else s.showRle env packet
  shown.map fun s => { s with spuChanged := true }

/-- `spudec_heartbeat`, which displays packets of the queue.  Each packet comes with what is outside
of the program when it is displayed. -/
def heartbeat (pts100 : Nat) (queue : List (Env × Packet)) (s : Picture) :
    Except Halt (List (Env × Packet) × Picture) :=
  go queue { s with nowPts := pts100 }
where
  go : List (Env × Packet) → Picture → Except Halt (List (Env × Packet) × Picture)
    | [], s => return ([], s)
    | (env, packet) :: queue, s =>
      if packet.startPts ≤ pts100 then do
        let s ← s.display env packet
        go queue s
      else return ((env, packet) :: queue, s)

end Picture

end MPlayer.Spu
