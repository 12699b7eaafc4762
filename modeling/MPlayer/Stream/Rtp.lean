import MPlayer.Stream.Basic
import Mathlib.Logic.Function.Basic

/-!
# RTP reordering

`read_rtp_from_server` reads datagrams and gives out their payloads in the order of
their sequence numbers.  A packet that is early waits in `rtpbuf`, a circular array:
`first` is the slot of the packet expected next, and `seq[first]` its sequence number.

Sequence numbers are numbers below 2^16, and their differences are plain integers, as
in the code.  The socket is the list of the datagrams it delivers: a read of more
blocks, which is `none`.
-/

namespace MPlayer

/-! ## Datagrams -/

/-- `MAXRTPPACKETSIN`. -/
def maxRtpPacketsIn : Nat := 32

/-- The size that `getrtp2` asks `recv` for. -/
def rtpRecvSize : Nat := 1590

/-- What `getrtp2` finds in a datagram: the sequence number, and the data with its
length. -/
structure RtpFrame where
  sequence : Nat
  lengthData : Int
  data : List UInt8

/-- `getrtp2`. -/
def getrtp2 (datagram : List UInt8) : RtpFrame :=
  let buf := datagram.take rtpRecvSize
  if buf.length < 12 then { sequence := 0, lengthData := 0, data := [] }
  else
    let cc := (buf.getD 0 0 &&& 0x0f).toNat
    let headerSize := 12 + 4 * cc
    { sequence := 256 * (buf.getD 2 0).toNat + (buf.getD 3 0).toNat
      lengthData := (buf.length : Int) - headerSize
      data := buf.drop headerSize }

/-! ## The cache -/

/-- `struct rtpbuffer`, with the static `is_first` of `rtp_cache`. -/
structure RtpBuffer where
  data : Nat → List UInt8
  seq : Nat → Nat
  len : Nat → Nat
  first : Nat
  isFirst : Bool

/-- `rtpbuf` when the program starts. -/
def rtpbufStart : RtpBuffer where
  data := fun _ => []
  seq := fun _ => 0
  len := fun _ => 0
  first := 0
  isFirst := true

/-- `++seq` on 16 bits. -/
def rtpNextSeq (seq : Nat) : Nat := (seq + 1) % 65536

/-- `rtp_cache_reset`. -/
def rtpCacheReset (seq : Nat) (b : RtpBuffer) : RtpBuffer :=
  { b with
    first := 0
    seq := Function.update b.seq 0 (rtpNextSeq seq)
    len := fun i => if i < maxRtpPacketsIn then 0 else b.len i }

/-- The end of `rtp_cache` at the label `feed`.  A negative length is no copy the code
could make. -/
def rtpFeed (f : RtpFrame) (b : RtpBuffer) : Option (List UInt8 × RtpBuffer) :=
  if f.lengthData < 0 then none else some (f.data, b)

/-- `rtp_cache`: the bytes copied to the buffer of the caller, none if it returns 0. -/
def rtpCache (datagram : List UInt8) (b : RtpBuffer) : Option (List UInt8 × RtpBuffer) :=
  let f := getrtp2 datagram
  if f.lengthData = 0 then some ([], b)
  else
    let newseq : Int := (f.sequence : Int) - b.seq b.first
    if newseq = 0 ∨ b.isFirst then
      let first := (1 + b.first) % maxRtpPacketsIn
      rtpFeed f { b with
        isFirst := false
        first := first
        seq := Function.update b.seq first (rtpNextSeq f.sequence) }
    else if newseq > maxRtpPacketsIn then rtpFeed f (rtpCacheReset f.sequence b)
    else if newseq < 0 then
      if (List.range maxRtpPacketsIn).any fun i => b.seq i == f.sequence then some ([], b)
      else if newseq > -(3 * maxRtpPacketsIn) then some ([], b)
      else rtpFeed f (rtpCacheReset f.sequence b)
    else if f.lengthData < 0 then none
    else
      let slot := (newseq.toNat + b.first) % maxRtpPacketsIn
      some ([], { b with
        data := Function.update b.data slot f.data
        len := Function.update b.len slot f.lengthData.toNat
        seq := Function.update b.seq slot f.sequence })

/-! ## Reading -/

/-- The loop of `rtp_get_next` over lost packets, from slot `i` on. -/
def rtpSkipLost (b : RtpBuffer) : Nat → Nat → Nat
  | 0, i => i
  | n + 1, i =>
    if b.len i = 0 then
      let j := (1 + i) % maxRtpPacketsIn
      if b.first = j then j else rtpSkipLost b n j
    else i

/-- The rest of `rtp_get_next`: the next packet that is not empty, from the cache. -/
def rtpGetCached (b : RtpBuffer) : List UInt8 × RtpBuffer :=
  let i := rtpSkipLost b maxRtpPacketsIn b.first
  let next := (1 + i) % maxRtpPacketsIn
  ((b.data i).take (b.len i),
    { b with
      len := Function.update b.len i 0
      first := next
      seq := Function.update b.seq next (rtpNextSeq (b.seq i)) })

/-- The loop of `rtp_get_next`, with its rest. -/
def rtpFill : Nat → List (List UInt8) → RtpBuffer →
    Option (List UInt8 × RtpBuffer × List (List UInt8))
  | 0, socket, b => some ((rtpGetCached b).1, (rtpGetCached b).2, socket)
  | n + 1, socket, b =>
    if b.len b.first ≠ 0 then some ((rtpGetCached b).1, (rtpGetCached b).2, socket)
    else
      match socket with
      | [] => none
      | datagram :: socket =>
        (rtpCache datagram b).bind fun (out, b) =>
          if out ≠ [] then some (out, b, socket) else rtpFill n socket b

/-- `rtp_get_next`. -/
def rtpGetNext (socket : List (List UInt8)) (b : RtpBuffer) :
    Option (List UInt8 × RtpBuffer × List (List UInt8)) :=
  rtpFill (maxRtpPacketsIn - 3) socket b

/-- The loop of `read_rtp_from_server`. -/
def rtpReadLoop : Nat → List (List UInt8) → RtpBuffer →
    Option (List UInt8 × RtpBuffer × List (List UInt8))
  | 0, _, _ => none
  | fuel + 1, socket, b =>
    (rtpGetNext socket b).bind fun (out, b, socket) =>
      if out = [] then rtpReadLoop fuel socket b else some (out, b, socket)

/-- `read_rtp_from_server`, with a buffer of `length` bytes. -/
def readRtpFromServer (fuel length : Nat) (socket : List (List UInt8)) (b : RtpBuffer) :
    Option (List UInt8 × RtpBuffer × List (List UInt8)) :=
  if length < streamBufferSize then some ([], b, socket) else rtpReadLoop fuel socket b

/-- Successive calls of `read_rtp_from_server`. -/
def rtpReads (fuel length : Nat) : Nat → List (List UInt8) → RtpBuffer →
    Option (List (List UInt8) × RtpBuffer × List (List UInt8))
  | 0, socket, b => some ([], b, socket)
  | n + 1, socket, b =>
    (readRtpFromServer fuel length socket b).bind fun (out, b, socket) =>
      (rtpReads fuel length n socket b).map fun (outs, rest) => (out :: outs, rest)

end MPlayer
