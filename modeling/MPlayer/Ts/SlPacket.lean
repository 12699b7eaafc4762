import MPlayer.Ts.Pes
import MPlayer.Ts.Tables

/-!
# Headers of SL packets

`mp4_parse_sl_packet` reads the header of an SL packet bit by bit.  Which fields there are and how
long they are is configured for the stream.  The bits that it reads are recorded (`SlCursor`).
What lies behind the packet is read as it is in memory.
-/

namespace MPlayer

/-- `mp_getbits`. -/
def mpGetbits (buffer : Nat → UInt8) (start len : Nat) : UInt8 :=
  let n := start / 8
  let m := start % 8
  let u := 8 - m
  let l := if u < len then len - u else 0
  let y := buffer n <<< UInt8.ofNat m
  let y := if len < 8 then y >>> UInt8.ofNat (8 - len) else y
  if l ≠ 0 then y ||| buffer (n + 1) >>> UInt8.ofNat (8 - l) else y

/-- The position `n` in the header, and what was read: positions and numbers of bits. -/
structure SlCursor where
  n : Nat
  reads : List (Nat × Nat)

namespace SlCursor

def skip (c : SlCursor) (len : Nat) : SlCursor := { c with n := c.n + len }

def getbits (buf : Nat → UInt8) (c : SlCursor) (len : Nat) : UInt8 × SlCursor :=
  (mpGetbits buf c.n len, ⟨c.n + len, (c.n, len) :: c.reads⟩)

/-- A flag, if the header has it. -/
def flag (buf : Nat → UInt8) (c : SlCursor) (present : Bool) : Bool × SlCursor :=
  if present then
    let (b, c) := c.getbits buf 1
    (b ≠ 0, c)
  else (false, c)

/-- The loop that reads a number of `left` bits, which is kept modulo `size`.  It returns nothing
if the packet is too short. -/
def number (buf : Nat → UInt8) (packetLen size : Nat) :
    Nat → Nat → Nat → SlCursor → Option Nat × SlCursor
  | 0, _, v, c => (some v, c)
  | turns + 1, left, v, c =>
    let m := min 8 left
    let (b, c) := c.getbits buf m
    let v := v ||| b.toNat
    let v := if left > 8 then v * 2 ^ 8 % size else v
    if packetLen * 8 ≤ c.n + 8 then (none, c) else number buf packetLen size turns (left - m) v c

/-- A number of `len` bits. -/
def getNumber (buf : Nat → UInt8) (packetLen size len : Nat) (c : SlCursor) :
    Option Nat × SlCursor :=
  number buf packetLen size ((len + 7) / 8) len 0 c

end SlCursor

/-- The flags at the beginning of a header. -/
structure SlFlags where
  auStart : Bool
  auEnd : Bool
  ocr : Bool
  idle : Bool
  padding : Bool
  paddingBits : UInt8

/-- The flags, and where they end. -/
def slFlags (sl : Mp4SlConfig) (buf : Nat → UInt8) : SlFlags × SlCursor :=
  let c : SlCursor := ⟨0, []⟩
  let (auStart, c) := c.flag buf sl.auStart
  let (auEnd, c) := c.flag buf sl.auEnd
  let auStart := if !sl.auStart && !sl.auEnd then true else auStart
  let auEnd := if !sl.auStart && !sl.auEnd then true else auEnd
  let (ocr, c) := c.flag buf (0 < sl.ocrLen)
  let (idle, c) := c.flag buf sl.idle
  let (padding, c) := c.flag buf sl.padding
  let (paddingBits, c) := if padding then c.getbits buf 3 else (0, c)
  (⟨auStart, auEnd, ocr, idle, padding, paddingBits⟩, c)

/-- The packet has no payload. -/
def SlFlags.Empty (flags : SlFlags) : Prop :=
  flags.idle ∨ flags.padding ∧ flags.paddingBits = 0

instance (flags : SlFlags) : Decidable flags.Empty := inferInstanceAs (Decidable (_ ∨ _ ∧ _))

/-- The end of a header that says that the payload has `plSize` bytes. -/
def slEnd (plSize : Nat) (pesEs : EsStream) (c : SlCursor) : Int × EsStream × SlCursor :=
  ((c.n + 7) / 8,
    { pesEs with
      payloadSize :=
        if 0 < plSize ∧ plSize < pesEs.payloadSize then plSize else pesEs.payloadSize },
    c)

/-- The fields that a header has at the start of an access unit. -/
def slAuStart (sl : Mp4SlConfig) (buf : Nat → UInt8) (packetLen : Nat) (pesEs : EsStream)
    (c : SlCursor) : Int × EsStream × SlCursor :=
  let (_, c) := c.flag buf sl.randomAccesspoint
  let pesEs := { pesEs with isSynced := true }
  let c := c.skip sl.auSeqnumLen.toNat
  if packetLen * 8 ≤ c.n + 8 then (-1, pesEs, c)
  else
    let (dtsFlag, c) := c.flag buf sl.useTs
    let (ctsFlag, c) := c.flag buf sl.useTs
    let (ibFlag, c) := c.flag buf (0 < sl.instantBitrateLen)
    if packetLen * 8 ≤ c.n + 8 then (-1, pesEs, c)
    else
      let c := if dtsFlag then c.skip sl.tsLen.toNat else c
      if packetLen * 8 ≤ c.n + 8 then (-1, pesEs, c)
      else
        let (cts, c) :=
          if ctsFlag ∧ 0 < sl.tsLen then c.getNumber buf packetLen (2 ^ 64) sl.tsLen.toNat
          else (some 0, c)
        match cts with
        | none => (-1, pesEs, c)
        | some v =>
          let pesEs :=
            if ctsFlag ∧ 0 < sl.tsLen then { pesEs with pts := ⟨v, sl.tsResolution.toNat⟩ }
            else pesEs
          match c.getNumber buf packetLen (2 ^ 32) sl.auLen.toNat with
          | (none, c) => (-1, pesEs, c)
          | (some plSize, c) =>
            slEnd plSize pesEs (if ibFlag then c.skip sl.instantBitrateLen.toNat else c)

/-- `mp4_parse_sl_packet` for the configuration of a stream. -/
def slHeader (sl : Mp4SlConfig) (buf : Nat → UInt8) (packetLen : Nat) (pesEs : EsStream) :
    Int × EsStream × SlCursor :=
  let (flags, c) := slFlags sl buf
  -- `sl.au_end` and `sl.last_au_end` of the stream are always the same
  let pesEs := { pesEs with
    lastAuEnd := if sl.auEnd || !sl.auStart then flags.auEnd.toNat else pesEs.lastAuEnd }
  if flags.Empty then (-1, { pesEs with payloadSize := 0 }, c)
  else
    let c := c.skip sl.packetSeqnumLen.toNat
    let (degFlag, c) := c.flag buf (0 < sl.degrLen)
    let c := if degFlag then c.skip sl.degrLen.toNat else c
    let c := if flags.ocr then c.skip sl.ocrLen.toNat else c
    if packetLen * 8 ≤ c.n then (-1, pesEs, c)
    else if flags.auStart then slAuStart sl buf packetLen pesEs c
    else slEnd 0 pesEs c

/-- The descriptor of the stream with a PID. -/
def Pmt.mp4EsDescr (pmt : Pmt) (pid : Nat) : Option Mp4EsDescr := do
  let entry ← (pmt.es.filter fun e => e.pid.toNat = pid).getLast?
  (pmt.mp4es.filter fun es => es.id = entry.mp4EsId).getLast?

/-- `mp4_parse_sl_packet`, with the bits that it reads. -/
def mp4ParseSlPacket (pmt : Option Pmt) (buf : Nat → UInt8) (packetLen pid : Nat)
    (pesEs : EsStream) : Int × EsStream × List (Nat × Nat) :=
  let pesEs := { pesEs with isSynced := false }
  match pmt with
  | none => (0, pesEs, [])
  | some pmt =>
    if packetLen = 0 then (0, pesEs, [])
    else
      match pmt.mp4EsDescr pid with
      | none => (-1, pesEs, [])
      | some es =>
        let (m, pesEs, c) :=
          slHeader es.sl buf packetLen { pesEs with subtype := es.decoder.objectType }
        (m, pesEs, c.reads)

end MPlayer
