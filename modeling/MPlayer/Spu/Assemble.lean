import MPlayer.Lib.Loops
import Mathlib.Algebra.Group.Int.Defs
import Mathlib.Algebra.Group.Nat.Defs
import MPlayer.Lib.Fin

/-!
# Assembling subpicture packets

A DVD subtitle (an SPU) is one packet that comes in fragments.  `spudec_assemble` copies them behind
one another, and when as many bytes are there as the packet's first two bytes say, it follows the
chain of control pointers.  If that ends in a pointer to itself, the packet is decoded.

An access outside of the memory of the packet is stopped as `bounds`.
-/

namespace MPlayer.Spu

open Lib

/-! ## Bytes -/

/-- `get_be16`. -/
def getBe16 (p : List UInt8) (i : Nat) : Except Halt Nat := do
  return (← fetch p (i : Nat)).toNat * 256 + (← fetch p (i + 1 : Nat)).toNat

/-- `get_be24`. -/
def getBe24 (p : List UInt8) (i : Nat) : Except Halt Nat := do
  return (← getBe16 p i) * 256 + (← fetch p (i + 2 : Nat)).toNat

/-- The 16 bits from a byte on. -/
def word (p : List UInt8) (i : Nat) : Nat := (p.getD i 0).toNat * 256 + (p.getD (i + 1) 0).toNat

/-! ## Fragments -/

/-- What `malloc` does during a call.  The memory it gives holds anything. -/
structure Malloc where
  get : Nat → Option (List UInt8)
  length_eq : ∀ {n memory}, get n = some memory → memory.length = n

/-- The arguments of a call. -/
structure Fragment where
  packet : List UInt8
  pts100 : Int
  malloc : Malloc
  length_lt : packet.length < 2 ^ 32

/-- The fields of `spudec_handle_t` that belong to the assembler.  `packet_reserve` is the length of
`packet`, or zero. -/
structure Assembler where
  packet : Option (List UInt8)
  packetOffset : Nat
  packetSize : Nat
  packetPts : Int

namespace Assembler

/-- The assembler of a new handle. -/
def init : Assembler where
  packet := none
  packetOffset := 0
  packetSize := 0
  packetPts := 0

/-- The memory of the packet. -/
def memory (spu : Assembler) : List UInt8 := spu.packet.getD []

/-- `packet_reserve`. -/
def packetReserve (spu : Assembler) : Nat := spu.memory.length

/-! ## The chain of control pointers -/

/-- How the walk along the control pointers ends. -/
inductive Verdict where
  | got
  | broken
  | ended
deriving DecidableEq

/-- A turn of the walk, at a pointer. -/
def walkTurn (memory : List UInt8) (packetOffset packetSize : Nat) (s : Nat × Verdict) :
    Except Halt (Turn (Nat × Verdict)) :=
  let x := s.1
  if x + 4 ≤ packetOffset then do
    let y ← getBe16 memory (x + 2)
    if 4 ≤ x ∧ x = y then return .leave (x, .got)
    else if y ≤ x ∨ packetSize ≤ y then return .leave (x, .broken)
    else return .again (y, .ended)
  else return .leave (x, .ended)

/-- The walk along the control pointers.  Each turn goes on further behind, so there are no more
turns than there are bytes. -/
def walk (memory : List UInt8) (packetOffset packetSize : Nat) : Except Halt Verdict := do
  let (_, verdict) ← loop (walkTurn memory packetOffset packetSize) (packetOffset + 1) (0, .ended)
  return verdict

/-! ## The assembler -/

/-- `memcpy` into the packet. -/
def copyIn (memory : List UInt8) (off : Nat) (packet : List UInt8) : Except Halt (List UInt8) :=
  if off + packet.length ≤ memory.length then
    .ok (memory.take off ++ (packet ++ memory.drop (off + packet.length)))
  else .error .bounds

/-- The memory for a packet of this size. -/
def reserve (spu : Assembler) (len2 : Nat) (malloc : Malloc) : Assembler :=
  if spu.packetReserve < len2 then { spu with packet := malloc.get len2 } else spu

/-- The fragment is put to the packet.  Gives nothing if `spudec_assemble` returns there. -/
def collect (spu : Assembler) (fragment : Fragment) : Except Halt (Assembler × Bool) :=
  let len := fragment.packet.length
  let spu := { spu with packetPts := fragment.pts100 }
  if spu.packetOffset = 0 then do
    let len2 ← getBe16 fragment.packet 0
    let spu := spu.reserve len2 fragment.malloc
    match spu.packet with
    | none => return (spu, true)
    | some memory =>
      let spu := { spu with packetSize := len2 }
      if len2 < len then return (spu, false)
      let memory ← copyIn memory 0 fragment.packet
      return ({ spu with packet := some memory, packetOffset := len }, true)
  -- The sum is an `unsigned int`.
  else if spu.packetSize < (spu.packetOffset + len) % 2 ^ 32 then
    return ({ spu with packetSize := 0, packetOffset := 0 }, false)
  else do
    let memory ← copyIn spu.memory spu.packetOffset fragment.packet
    return ({ spu with packet := some memory, packetOffset := spu.packetOffset + len }, true)

/-- A complete packet is decoded if its control pointers are fine.  Gives the packet for
`spudec_decode`. -/
def finish (spu : Assembler) : Except Halt (Assembler × Option (List UInt8)) :=
  if spu.packetOffset = spu.packetSize ∨ spu.packetOffset + 1 = spu.packetSize then do
    match ← walk spu.memory spu.packetOffset spu.packetSize with
    | .got => return ({ spu with packetOffset := 0 }, some (spu.memory.take spu.packetSize))
    | .broken => return ({ spu with packetSize := 0, packetOffset := 0 }, none)
    | .ended => return ({ spu with packetOffset := 0 }, none)
  else return (spu, none)

/-- `spudec_assemble`, with the packet for `spudec_decode`. -/
def assemble (spu : Assembler) (fragment : Fragment) :
    Except Halt (Assembler × Option (List UInt8)) :=
  if fragment.packet.length < 2 then return (spu, none)
  else do
    let (spu, complete) ← spu.collect fragment
    if complete then spu.finish else return (spu, none)

/-- Fragments one after the other, with the packets that are decoded. -/
def feed (spu : Assembler) : List Fragment → Except Halt (Assembler × List (List UInt8))
  | [] => return (spu, [])
  | fragment :: fragments => do
    let (spu, decoded) ← spu.assemble fragment
    let (spu, packets) ← spu.feed fragments
    return (spu, decoded.toList ++ packets)

end Assembler

end MPlayer.Spu
