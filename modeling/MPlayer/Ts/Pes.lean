import MPlayer.Ts.Basic
import Mathlib.Algebra.Group.Nat.Defs

/-!
# PES packets

`pes_parse2` reads the header of a PES packet, of which it is given the part that is in the
first transport packet, and tells what of this part belongs to the stream.
-/

namespace MPlayer

variable {T : Type}

/-! ## `parse_pes_extension_fields` -/

/-- `n` if a flag is set. -/
def ifFlag (b mask : UInt8) (n : Nat) : Nat := if b &&& mask ≠ 0 then n else 0

/-- `parse_pes_extension_fields`: the id of the substream, -1 if there is none. -/
def parsePesExtensionFields (p : Nat → UInt8) (pktLen : Nat) : Int :=
  if p 7 &&& 0x01 = 0 then -1
  else
    let skip := 9 + ifFlag (p 7) 0x80 (5 + ifFlag (p 7) 0x40 5) + ifFlag (p 7) 0x20 6 +
      ifFlag (p 7) 0x10 3
    let skip := (if p 7 &&& 0x08 ≠ 0 then 0 else skip) + ifFlag (p 7) 0x04 1 + ifFlag (p 7) 0x02 2
    if pktLen ≤ skip then -1
    else
      let flags := p skip
      let skip := skip + 1 + ifFlag flags 0x80 16
      if pktLen ≤ skip then -1
      else
        let skip := skip + ifFlag flags 0x40 (p skip).toNat + ifFlag flags 0x20 2 +
          ifFlag flags 0x10 2
        if pktLen ≤ skip then -1
        else if flags &&& 0x01 ≠ 0 ∧ p skip = 0x81 ∧ skip + 1 < pktLen then (p (skip + 1)).toNat
        else -1

/-! ## `pes_parse2` -/

/-- A difference of two `uint16_t`. -/
def sub16 (a b : Nat) : Nat := (a + 2 ^ 16 - b) % 2 ^ 16

/-- The PTS in the header. -/
def pesPts (p : Nat → UInt8) : Nat :=
  (p 9 &&& 0x0e).toNat <<< 29 ||| (p 10).toNat <<< 22 ||| (p 11 &&& 0xfe).toNat <<< 14 |||
    (p 12).toNat <<< 7 ||| (p 13 &&& 0xfe).toNat >>> 1

/-- The search for the mark in front of LPCM samples, from `offset` on. -/
def lpcmOffset (p : Nat → UInt8) : Nat → Nat → Nat
  | 0, offset => offset
  | n + 1, offset =>
    if p offset = 0x01 ∧ p (offset + 1) = 0x80 then offset + 2 else lpcmOffset p n (offset + 1)

/-- What of the payload of private stream 1 is not of the stream, and the type of the stream. -/
def private1 (p : Nat → UInt8) (packetLen : Nat) (aligned : Bool) (typeFromPmt : EsType) :
    Nat × EsType :=
  if typeFromPmt = .spuPgs then (0, .spuPgs)
  else if typeFromPmt = .audioA52 ∨ 2 ≤ packetLen ∧ p 0 = 0x0b ∧ p 1 = 0x77 then (0, .audioA52)
  else if typeFromPmt = .spuDvb ∨ 2 ≤ packetLen ∧ p 0 = 0x20 ∧ aligned then (2, .spuDvb)
  else if aligned ∧ 1 ≤ packetLen ∧ p 0 &&& 0xe0 = 0x20 then (1, .spuDvd)
  else if aligned ∧ 4 ≤ packetLen ∧ p 0 &&& 0xf8 = 0x80 then (4, .audioA52)
  else if aligned ∧ 1 ≤ packetLen ∧ p 0 &&& 0xf0 = 0xa0 then
    (lpcmOffset p (packetLen - 2) 1, .audioLpcmBe)
  else (0, if typeFromPmt = .unknown then .pesPrivate1 else typeFromPmt)

/-- The part of `pes_parse2` behind the header: `p` is the payload and `start` where it
starts. -/
def pesPayload (env : TsEnv T) (p : Nat → UInt8) (start packetLen streamId : Nat) (aligned : Bool)
    (typeFromPmt : EsType) (pid : Nat) (tables : T) (es : EsStream) : Bool × T × EsStream :=
  let whole := { es with start := start, size := packetLen }
  let less := sub16 es.payloadSize packetLen
  let lessIfSet := if es.payloadSize ≠ 0 then less else 0
  if streamId = 0xbd then
    let (skip, type) := private1 p packetLen aligned typeFromPmt
    (true, tables, { es with
      start := start + skip, size := (packetLen : Int) - skip, type := type, payloadSize := less })
  else if 0xe0 ≤ streamId ∧ streamId ≤ 0xef ∨ streamId = 0xfd ∧ typeFromPmt ≠ .unknown then
    (true, tables, { whole with
      type := if typeFromPmt ≠ .unknown then typeFromPmt else .videoMpeg2
      payloadSize := lessIfSet })
  else if streamId = 0xfa then
    if typeFromPmt ≠ .unknown then
      let es := { whole with isSynced := false, type := typeFromPmt }
      if typeFromPmt = .slPesStream then
        match env.parseSlPacket pid ((List.range packetLen).map p) tables es with
        | (l, tables, es) =>
          let l := if l < 0 then 0 else l
          (true, tables, { es with
            start := start + l.toNat, size := (packetLen : Int) - l
            payloadSize := if es.payloadSize ≠ 0 then sub16 es.payloadSize packetLen else 0 })
      else (true, tables, { es with payloadSize := lessIfSet })
    else (false, tables, { es with isSynced := false })
  else if streamId &&& 0xe0 = 0xc0 then
    (true, tables, { whole with
      type := if typeFromPmt ≠ .unknown then typeFromPmt else .audioMp2, payloadSize := less })
  else if typeFromPmt ≠ .unknown then
    (true, tables, { whole with type := typeFromPmt, payloadSize := less })
  else (false, tables, { es with isSynced := false })

/-- `pes_parse2`: whether it is a PES packet of the stream, and what is made of `es`. -/
def pesParse2 (env : TsEnv T) (p : Nat → UInt8) (packetLen : Nat) (typeFromPmt : EsType)
    (pid : Nat) (tables : T) (es : EsStream) : Bool × T × EsStream :=
  if packetLen = 0 ∨ 184 < packetLen then (false, tables, es)
  else if p 0 ≠ 0 ∨ p 1 ≠ 0 ∨ p 2 ≠ 1 then (false, tables, es)
  else if packetLen = 6 then (false, tables, es)
  else
    let size := (p 4).toNat * 256 + (p 5).toNat
    let aligned := p 6 &&& 4 ≠ 0
    let streamId := (p 3).toNat
    let headerLen := (p 8).toNat
    let es := { es with
      payloadSize := size, pts := if p 7 &&& 0x80 ≠ 0 then ptsTime (pesPts p) else .zero }
    if packetLen < headerLen + 9 then (false, tables, es)
    else
      let ssid := parsePesExtensionFields p packetLen
      if streamId = 0xfd ∧ env.audioSubstreamId ≠ -1 ∧ ssid ≠ env.audioSubstreamId then
        (false, tables, es)
      else
        let truehd := streamId = 0xfd ∧ ssid = 0x72 ∧ typeFromPmt ≠ .audioDts ∧
          typeFromPmt ≠ .spuPgs
        let typeFromPmt := if truehd then .audioTruehd else typeFromPmt
        let es := { es with
          type := if truehd then .audioTruehd else es.type
          payloadSize := if size ≠ 0 then sub16 size (headerLen + 3) else 0
          isSynced := true }
        pesPayload env (fun i => p (headerLen + 9 + i)) (headerLen + 9)
          (packetLen - (headerLen + 9)) streamId aligned typeFromPmt pid tables es

end MPlayer
