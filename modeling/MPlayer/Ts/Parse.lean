import MPlayer.Ts.Pes

/-!
# `ts_parse`

Every iteration of the loop of `ts_parse` looks for a sync byte and reads one transport packet.
An iteration gives the value that the function returns then, if it does.
-/

namespace MPlayer

open Lib

variable {T : Type}

/-! ## `ts_sync` -/

/-- The sync byte. -/
def tsSyncByte : UInt8 := 0x47

/-- The loop of `ts_sync` over the bytes that are left. -/
def tsSyncFrom (pos : Nat) : List UInt8 → Bool × Reader
  | [] => (false, ⟨pos, [], true⟩)
  | b :: rest =>
    if b = tsSyncByte then (true, ⟨pos + 1, rest, false⟩) else tsSyncFrom (pos + 1) rest

/-- `ts_sync`. -/
def tsSync (r : Reader) : Bool × Reader :=
  if r.eof then (false, r) else tsSyncFrom r.pos r.rest

/-! ## The header -/

/-- `TS_PACKET_SIZE`. -/
def tsPacketSize : Nat := 188

/-- `TS_FEC_PACKET_SIZE`. -/
def tsFecPacketSize : Nat := 204

/-- What the three bytes behind the sync byte say. -/
structure TsHead where
  tsError : Bool
  isStart : Bool
  pid : Nat
  afc : Nat
deriving DecidableEq

/-- Read the three bytes. -/
def tsHead (b1 b2 b3 : UInt8) : TsHead :=
  ⟨b1 &&& 0x80 ≠ 0, b1 &&& 0x40 ≠ 0, (b1 &&& 0x1f).toNat * 256 + b2.toNat, (b3 >>> 4 &&& 3).toNat⟩

/-- `is_start`, which a packet with an error loses. -/
def TsHead.starts (h : TsHead) : Bool := h.isStart && !h.tsError

/-- Whether a packet is rejected for its header. -/
def TsHead.rejected (h : TsHead) (keepBroken synced : Bool) : Bool :=
  h.tsError && !keepBroken || !(h.starts || synced) || 1 < h.pid && h.pid < 16 || h.pid = 8191 ||
    h.afc % 2 = 0

/-! ## One iteration -/

/-- The result of an iteration: the value returned, `es` and the demuxer. -/
abbrev TsResult (T : Type) := Option Int × EsStream × TsState T

/-- How much of a payload continues a PES packet of which `payloadSize` bytes are missing. -/
def continueSize (payloadSize bufSize : Nat) : Nat :=
  if 0 < payloadSize then min payloadSize bufSize else bufSize

/-- Count the next `sz` bytes of the buffer as filled. -/
def Fifo.grow (fifo : Fifo) (sz : Nat) : Fifo := { fifo with offset := fifo.offset + sz }

/-- Set the time of the packet that is filled. -/
def Fifo.setPts (fifo : Fifo) (pts : Time) : Fifo :=
  { fifo with pack := fifo.pack.map fun pack => { pack with pts := some pts } }

/-- Move bytes to the end of what was filled. -/
def Fifo.move (fifo : Fifo) (bytes : List UInt8) : Fifo :=
  { fifo with pack := fifo.pack.map fun pack => { pack with
      buffer := pack.buffer.take fifo.offset ++ bytes } }

/-- Pass the packet on, if it is time to. -/
def fillIf (due : Bool) (slot : Slot) (retv : Nat) (st : TsState T) : Nat × TsState T :=
  if due then fillPacket slot st else (retv, st)

/-- The continuation of a PES packet. -/
def tsContinue (pid bufSize : Nat) (slot : Option Slot) (tss : EsStream) (es : EsStream)
    (st : TsState T) : TsResult T :=
  let es := { es with
    type := tss.type, subtype := tss.subtype, pts := tss.lastPts, start := 0 }
  let tss := { tss with pts := tss.lastPts }
  if tss.payloadSize = 0 ∧ !tss.carriesVideo then (none, es, st.setPid pid tss)
  else
    let sz := continueSize tss.payloadSize bufSize
    let tss := { tss with payloadSize := tss.payloadSize - sz }
    let es := { es with size := sz }
    let st := st.setPid pid tss
    match slot with
    | none => (if sz ≠ 0 then some sz else none, es, st)
    | some slot =>
      let fifo := (st.fifo slot).grow sz
      if maxPackBytes ≤ fifo.offset ∨ tss.type.isSub ∧ tss.payloadSize = 0 then
        (some 1, es, (fillPacket slot (st.setFifo slot (fifo.setPts tss.lastPts))).2)
      else (none, es, st.setFifo slot fifo)

/-- What lies in memory where data was read to. -/
def TsEnv.memory (env : TsEnv T) (data : List UInt8) (i : Nat) : UInt8 :=
  if h : i < data.length then data[i] else env.stale i

/-- The start of a PES packet in a stream that is probed. -/
def tsProbe (pid : Nat) (tss : EsStream) (es : EsStream) (st : TsState T) : TsResult T :=
  if es.type = .unknown then (some 0, es, st.setPid pid tss)
  else (some 1, es, st.setPid pid { tss with type := es.type, subtype := es.subtype })

/-- The size of what starts a PES packet, 0 if it can't be. -/
def startSize (size : Int) (bufSize : Nat) : Nat :=
  if size < 0 ∨ bufSize < size then 0 else size.toNat

/-- The start of a PES packet in a stream that is selected. -/
def tsBegin (pid : Nat) (data : List UInt8) (slot : Slot) (retv : Nat) (tss : EsStream)
    (es : EsStream) (st : TsState T) : TsResult T :=
  let pts := if es.pts.num = 0 then tss.lastPts else es.pts
  let tss := { tss with pts := pts, lastPts := pts }
  let size := startSize es.size data.length
  let es := { es with pts := pts, size := size }
  let fifo := (((st.fifo slot).move ((data.drop es.start).take size)).grow size).setPts pts
  let (retv, st) := fillIf (tss.type.isSub && tss.payloadSize = 0) slot retv
    ((st.setPid pid tss).setFifo slot fifo)
  (if 0 < retv then some retv else none, es, st)

/-- The start of a PES packet. -/
def tsStart (env : TsEnv T) (pid : Nat) (data : List UInt8) (slot : Option Slot) (rap : Bool)
    (pidType : EsType) (retv : Nat) (tss : EsStream) (es : EsStream) (st : TsState T) :
    TsResult T :=
  match pesParse2 env (env.memory data) data.length pidType pid st.tables es with
  | (false, tables, es) =>
    (none, es, { st with tables := tables }.setPid pid { tss with isSynced := false })
  | (true, tables, es) =>
    let st := { st with tables := tables }
    let tss := { tss with
      isSynced := tss.isSynced || es.isSynced || rap, payloadSize := es.payloadSize }
    match slot with
    | none => tsProbe pid tss es st
    | some slot => tsBegin pid data slot retv tss es st

/-- What is done with the payload of a packet.  Without a buffer the stream is only probed, or
the payload is dropped. -/
def tsDispatch (env : TsEnv T) (probe : Bool) (h : TsHead) (data : List UInt8)
    (slot : Option Slot) (rap : Bool) (pidType : EsType) (retv : Nat) (tss : EsStream)
    (es : EsStream) (st : TsState T) : TsResult T :=
  let progid := env.progIdInPat h.pid st.tables
  if h.pid = 0 then
    (none, es, { st with tables := env.parsePat h.starts data st.tables })
  else if tss.type = .slSection ∧ env.hasPmt h.pid st.tables then
    (none, es, { st with tables := env.parseSlSections h.pid h.starts data st.tables })
  else if progid ≠ -1 ∧ h.pid ≠ st.id .video ∧ h.pid ≠ st.id .audio ∧ h.pid ≠ st.id .sub then
    match env.parsePmt progid h.pid h.starts data st.tables with
    | (tables, announced) =>
      (none, es, { st with
        tables := tables
        pids := fun pid => (st.pids pid).or
          ((announced.find? fun a => a.1 = pid).map fun a => newPid a.2) })
  else if !probe ∧ slot = none then (none, es, st)
  else if h.starts then
    tsStart env h.pid data slot rap pidType retv tss es st
  else tsContinue h.pid data.length slot tss es st

/-- A packet to fill. -/
def Fifo.ready (fifo : Fifo) : Fifo :=
  match fifo.pack with
  | some _ => fifo
  | none =>
    let bufferSize := min fifo.bufferSize maxPackBytes.toNat
    ⟨some ⟨[], bufferSize, none⟩, 0, bufferSize⟩

/-- Make room for `bufSize` more bytes. -/
def Fifo.makeRoom (fifo : Fifo) (bufSize : Nat) : Fifo :=
  if fifo.bufferSize < fifo.offset + bufSize then
    let bufferSize := fifo.offset + bufSize + tsFecPacketSize
    { fifo with
      bufferSize := bufferSize
      pack := fifo.pack.map fun pack => { pack with len := bufferSize } }
  else fifo

/-- Write up to `bufSize` bytes behind what was filled. -/
def Fifo.write (fifo : Fifo) (data : List UInt8) (bufSize : Nat) : Except Fault Fifo :=
  match fifo.pack with
  | none => .error .undefined
  | some pack =>
    if pack.len < fifo.offset + bufSize then .error .undefined else .ok (fifo.move data)

/-- Write the payload to the packet that is filled, if there is one. -/
def writePayload (data : List UInt8) (bufSize : Nat) (slot : Option Slot) (st : TsState T) :
    Except Fault (TsState T) :=
  match slot with
  | some slot => do
    let fifo ← ((st.fifo slot).ready.makeRoom bufSize).write data bufSize
    .ok (st.setFifo slot fifo)
  | none => if tsFecPacketSize < st.packetSize then .error .undefined else .ok st

/-- Pass on what was filled before a PES packet starts. -/
def tsQueue (h : TsHead) (slot : Option Slot) (st : TsState T) : Nat × TsState T :=
  match slot with
  | some slot => fillIf h.starts slot 0 st
  | none => (0, st)

/-- Read the payload, into the packet that is filled if there is one, and the trailer. -/
def tsFeed (env : TsEnv T) (probe : Bool) (h : TsHead) (bufSize : Nat) (slot : Option Slot)
    (rap : Bool) (pidType : EsType) (tss : EsStream) (es : EsStream) (st : TsState T) :
    Except Fault (TsResult T) :=
  let queued := tsQueue h slot st
  let payload := queued.2.reader.read bufSize
  writePayload payload.1 bufSize slot queued.2 >>= fun st =>
    if payload.1.length < bufSize then .ok (none, es, { st with reader := payload.2 })
    else
      .ok (tsDispatch env probe h payload.1 slot rap pidType queued.1 tss es
        { st with reader := payload.2.skip (st.packetSize - tsPacketSize) })

/-- Set the type of a stream of MPEG-4 that a table has told. -/
def tsMp4Type (env : TsEnv T) (pid : Nat) (tables : T) (tss : EsStream) : EsStream :=
  match env.mp4Dec pid tables with
  | some object =>
    if object.isVideo || object.isAudio then { tss with type := .slPesStream, subtype := object }
    else tss
  | none => tss

/-- Add the stream that a packet starts. -/
def tsAddStart (env : TsEnv T) (h : TsHead) (tss : EsStream) (st : TsState T) : TsState T :=
  if (tss.carriesVideo || tss.carriesAudio || tss.type.isSub) && h.starts then
    tsAddStream env h.pid tss st
  else st

/-- The stream that a packet is for, and whether it is for subtitles that are not selected. -/
def tsSlot (pid : Nat) (tss : EsStream) (st : TsState T) : Option Slot × Bool :=
  if tss.carriesVideo ∧ st.id .video = (st.streams pid).id then (some .video, false)
  else if tss.carriesAudio ∧ st.id .audio = (st.streams pid).id then (some .audio, false)
  else if tss.type.isSub then
    if st.subSid = some pid then (some .sub, false) else (none, true)
  else (none, false)

/-- What is done with a packet that has a payload of `bufSize` bytes. -/
def tsContent (env : TsEnv T) (probe : Bool) (h : TsHead) (bufSize : Nat) (rap : Bool)
    (tss : EsStream) (es : EsStream) (st : TsState T) : Except Fault (TsResult T) :=
  let tss := tsMp4Type env h.pid st.tables tss
  let st := st.setPid h.pid tss
  let pidType := env.typeFromPmt h.pid st.tables
  if probe then tsFeed env probe h bufSize none rap pidType tss es st
  else
    let st := tsAddStart env h tss st
    match tsSlot h.pid tss st with
    | (_, true) =>
      .ok (none, es, { st with
        reader := st.reader.skip (bufSize + (st.packetSize - tsPacketSize)) })
    | (slot, false) => tsFeed env probe h bufSize slot rap pidType tss es st

/-- The adaptation field: how much payload is left and whether it is a random access point,
nothing if no payload is. -/
def tsAdaptation (afc junk : Nat) (r : Reader) : Option (Nat × Bool) × Reader :=
  if afc ≤ 1 then (some (184, false), r)
  else
    let (c, r) := r.readChar
    if c < 0 ∨ 183 < c then (none, r.skip (182 + junk))
    else if c = 0 then (some (183, false), r)
    else
      let (flags, r) := r.readChar
      let (_, r) := r.read (c.toNat - 1)
      let bufSize := 183 - c.toNat
      (if bufSize = 0 then none else some (bufSize, flags.toNat &&& 0x40 ≠ 0), r)

/-- What is done with a packet, from behind its header on. -/
def tsPacket (env : TsEnv T) (probe : Bool) (h : TsHead) (es : EsStream) (st : TsState T) :
    Except Fault (TsResult T) :=
  let junk := st.packetSize - tsPacketSize
  let tss := (st.pids h.pid).getD (newPid .unknown)
  let rejected := h.rejected st.keepBroken tss.isSynced
  let tss := if h.tsError && !st.keepBroken then tss
    else { tss with isSynced := tss.isSynced || h.starts }
  let st := st.setPid h.pid tss
  if rejected then
    .ok (none, es, { st with reader := st.reader.skip (183 + junk) })
  else
    match tsAdaptation h.afc junk st.reader with
    | (none, r) => .ok (none, es, { st with reader := r })
    | (some (bufSize, rap), r) =>
      tsContent env probe h bufSize rap tss es { st with reader := r }

/-- An iteration of the loop of `ts_parse`. -/
def tsIteration (env : TsEnv T) (probe : Bool) (es : EsStream) (st : TsState T) :
    Except Fault (TsResult T) :=
  let es := { es with isSynced := false }
  if st.reader.eof then .ok (some 0, es, if probe then st else tsDumpStreams st)
  else
    match tsSync st.reader with
    | (false, r) => .ok (some 0, es, { st with reader := r })
    | (true, r) =>
      match r.read 3 with
      | ([b1, b2, b3], r) => tsPacket env probe (tsHead b1 b2 b3) es { st with reader := r }
      | (_, r) => .ok (some 0, es, { st with reader := r })

end MPlayer
