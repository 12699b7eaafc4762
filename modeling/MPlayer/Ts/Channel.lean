import MPlayer.Ts.Sync

/-!
# One stream of the demuxer

What an iteration of `ts_parse` does with a packet of a selected stream is a function of what
belongs to this stream, its channel.  The other streams are left alone.
-/

namespace MPlayer

open Lib

variable {T : Type}

/-! ## Channels -/

/-- What the demuxer keeps for a selected stream, and what the stream was given. -/
structure Channel where
  tss : EsStream
  fifo : Fifo
  queue : List TsPack
deriving DecidableEq

/-- A PES packet has started. -/
def Channel.synced (ch : Channel) : Channel := { ch with tss := { ch.tss with isSynced := true } }

/-- Nothing is filled any more. -/
def Channel.drop (ch : Channel) : Channel :=
  { ch with fifo := { ch.fifo with pack := none, offset := 0 } }

/-- `fill_packet`. -/
def Channel.flush (ch : Channel) : Channel :=
  match ch.fifo.pack with
  | none => ch.drop
  | some pack =>
    if ch.fifo.offset = 0 then ch.drop
    else
      { ch with queue := ch.queue ++ [{ pack with
          buffer := pack.buffer.take ch.fifo.offset, len := ch.fifo.offset }] }.drop

/-- `fill_packet`, if it is due. -/
def Channel.flushIf (due : Bool) (ch : Channel) : Channel := if due then ch.flush else ch

/-- Read a payload behind what was filled. -/
def Channel.feed (data : List UInt8) (ch : Channel) : Channel :=
  { ch with fifo := (ch.fifo.ready.makeRoom data.length).move data }

/-- Take over what `pes_parse2` found in the payload that was read. -/
def Channel.takeStart (data : List UInt8) (rap : Bool) (es : EsStream) (ch : Channel) : Channel :=
  let pts := if es.pts.num = 0 then ch.tss.lastPts else es.pts
  let size := startSize es.size data.length
  Channel.flushIf (ch.tss.type.isSub && es.payloadSize = 0)
    { ch with
      tss := { ch.tss with
        isSynced := ch.tss.isSynced || es.isSynced || rap, payloadSize := es.payloadSize
        pts := pts, lastPts := pts }
      fifo := ((ch.fifo.move ((data.drop es.start).take size)).grow size).setPts pts }

/-- Take over a payload of `bufSize` bytes that was read. -/
def Channel.takeMore (bufSize : Nat) (ch : Channel) : Channel :=
  let tss : EsStream := { ch.tss with pts := ch.tss.lastPts }
  if tss.payloadSize = 0 ∧ !tss.carriesVideo then { ch with tss := tss }
  else
    let sz := continueSize tss.payloadSize bufSize
    let tss : EsStream := { tss with payloadSize := tss.payloadSize - sz }
    let fifo := ch.fifo.grow sz
    if maxPackBytes ≤ fifo.offset ∨ tss.type.isSub ∧ tss.payloadSize = 0 then
      Channel.flush { ch with tss := tss, fifo := fifo.setPts tss.lastPts }
    else { ch with tss := tss, fifo := fifo }

/-- What becomes of a packet in which `pes_parse2` finds the start of a PES packet. -/
def Channel.startPes (data : List UInt8) (rap : Bool) (es : EsStream) (ch : Channel) : Channel :=
  (ch.synced.flush.feed data).takeStart data rap es

/-- What becomes of a packet that continues a PES packet. -/
def Channel.continuePes (data : List UInt8) (ch : Channel) : Channel :=
  (ch.synced.feed data).takeMore data.length

/-! ## Channels of the demuxer -/

/-- The demuxer with the channel of a stream replaced. -/
def TsState.put (st : TsState T) (pid : Nat) (slot : Slot) (ch : Channel) : TsState T :=
  { st with
    pids := fun i => if i = pid then some ch.tss else st.pids i
    fifo := fun s => if s = slot then ch.fifo else st.fifo s
    queue := fun s => if s = slot then ch.queue else st.queue s }

/-- The demuxer with its stream somewhere else. -/
def TsState.moveTo (st : TsState T) (r : Reader) : TsState T := { st with reader := r }

variable {st : TsState T} {pid : Nat} {slot : Slot} {ch : Channel}

theorem put_setPid (tss : EsStream) :
    (st.put pid slot ch).setPid pid tss = st.put pid slot { ch with tss := tss } := by
  simp only [TsState.put, TsState.setPid, TsState.mk.injEq, true_and, and_true]
  funext i
  split
  · rfl
  · rfl

theorem put_setFifo (fifo : Fifo) :
    (st.put pid slot ch).setFifo slot fifo = st.put pid slot { ch with fifo := fifo } := by
  simp only [TsState.put, TsState.setFifo, TsState.mk.injEq, true_and, and_true]
  funext i
  split
  · rfl
  · rfl

theorem put_addPacket (pack : TsPack) :
    (st.put pid slot ch).addPacket slot pack =
      st.put pid slot { ch with queue := ch.queue ++ [pack] } := by
  simp only [TsState.put, TsState.addPacket, TsState.mk.injEq, true_and]
  funext i
  split
  · simp
  · rfl

@[simp] theorem setPid_reader (tss : EsStream) : (st.setPid pid tss).reader = st.reader := rfl

@[simp] theorem put_fifo : (st.put pid slot ch).fifo slot = ch.fifo := if_pos rfl

theorem put_fillPacket :
    (fillPacket slot (st.put pid slot ch)).2 = st.put pid slot ch.flush := by
  rw [fillPacket, Channel.flush, put_fifo]
  cases hpack : ch.fifo.pack with
  | none => exact put_setFifo _
  | some pack =>
    dsimp only
    split
    · exact put_setFifo _
    · rw [put_addPacket, put_setFifo]
      rfl

theorem put_fillIf (due : Bool) (retv : Nat) :
    (fillIf due slot retv (st.put pid slot ch)).2 = st.put pid slot (ch.flushIf due) := by
  cases due
  · rfl
  · exact put_fillPacket

/-- Setting what is known of a PID replaces the channel of its stream. -/
theorem setPid_eq_put (hfifo : st.fifo slot = ch.fifo) (hqueue : st.queue slot = ch.queue) :
    st.setPid pid ch.tss = st.put pid slot ch := by
  have hfifos : (fun s => if s = slot then ch.fifo else st.fifo s) = st.fifo := by
    funext s
    split
    next h => rw [h, hfifo]
    · rfl
  have hqueues : (fun s => if s = slot then ch.queue else st.queue s) = st.queue := by
    funext s
    split
    next h => rw [h, hqueue]
    · rfl
  rw [TsState.put, hfifos, hqueues]
  rfl

variable (st pid slot ch) in
theorem put_tsContinue (bufSize : Nat) (es : EsStream) :
    ∃ o es', tsContinue pid bufSize (some slot) ch.tss es (st.put pid slot ch) =
      (o, es', st.put pid slot (ch.takeMore bufSize)) := by
  rw [tsContinue, Channel.takeMore]
  dsimp only
  split
  · exact ⟨_, _, by rw [put_setPid]⟩
  · rw [put_setPid, put_fifo]
    split
    · rw [put_setFifo, put_fillPacket]
      exact ⟨_, _, rfl⟩
    · rw [put_setFifo]
      exact ⟨_, _, rfl⟩

variable (st pid slot ch) in
theorem put_tsBegin (data : List UInt8) (rap : Bool) (retv : Nat) (es : EsStream) :
    ∃ o es', tsBegin pid data slot retv { ch.tss with
        isSynced := ch.tss.isSynced || es.isSynced || rap, payloadSize := es.payloadSize } es
        (st.put pid slot ch) = (o, es', st.put pid slot (ch.takeStart data rap es)) := by
  rw [tsBegin, Channel.takeStart]
  dsimp only
  rw [put_setPid, put_setFifo, put_fifo, put_fillIf]
  exact ⟨_, _, rfl⟩

theorem put_tsQueue (h : TsHead) :
    (tsQueue h (some slot) (st.put pid slot ch)).2 = st.put pid slot (ch.flushIf h.starts) :=
  put_fillIf h.starts 0

variable {data rest : List UInt8} {tss : EsStream} {junk : Nat} {c : Chunk} {env : TsEnv T}

/-- A payload that is read to the channel of its stream. -/
theorem put_tsFeed (env : TsEnv T) (h : TsHead) (rap : Bool) (pidType : EsType)
    (tss es : EsStream) (hok : FifosOk (st.put pid slot ch))
    (hrest : st.reader.rest = data ++ rest) :
    ∃ retv r, tsFeed env false h data.length (some slot) rap pidType tss es (st.put pid slot ch) =
      .ok (tsDispatch env false h data (some slot) rap pidType retv tss es
        ((st.moveTo r).put pid slot ((ch.flushIf h.starts).feed data))) := by
  have hkept := tsQueue_kept h (some slot) (st.put pid slot ch)
  have hfifos := hkept.fifos hok
  have hread : (st.put pid slot ch).reader.read data.length = (data, st.reader.advance data rest) :=
    Reader.read_append hrest
  rw [put_tsQueue] at hfifos
  have hwrite : writePayload data data.length (some slot) (st.put pid slot (ch.flushIf h.starts)) =
      .ok (st.put pid slot ((ch.flushIf h.starts).feed data)) := by
    rw [writePayload, (hfifos slot).write, ok_bind, put_fifo, put_setFifo]
    rfl
  rw [tsFeed, hkept.reader, hread]
  dsimp only
  rw [put_tsQueue, hwrite, ok_bind, if_neg (Nat.lt_irrefl _)]
  exact ⟨_, _, rfl⟩

/-! ## Packets of a selected stream -/

/-- The stream with this PID is selected, of the type that is known of it. -/
structure Selected (env : TsEnv T) (st : TsState T) (slot : Slot) (pid : Nat) (tss : EsStream) :
    Prop where
  lo : 16 ≤ pid
  hi : pid < 8191
  slot : tsSlot pid tss st = (some slot, false)
  header : (st.streams pid).sh = true
  noPmt : env.progIdInPat pid st.tables = -1

/-- What a packet carries. -/
structure Chunk where
  pid : Nat
  isStart : Bool
  data : List UInt8

/-- A packet without an error and with some payload carries it. -/
structure TsWire.Carries {junk : Nat} (w : TsWire junk) (c : Chunk) : Prop where
  noError : w.head.tsError = false
  isStart : w.head.isStart = c.isStart
  pid : w.head.pid = c.pid
  payload : w.head.afc = 1 ∧ c.data = w.body ∨
    w.head.afc = 3 ∧ (w.body.headD 0).toNat < 183 ∧
      c.data = w.body.drop ((w.body.headD 0).toNat + 1)

theorem tsSlot_section {pid : Nat} {st : TsState T} {slot : Slot}
    (h : tsSlot pid tss st = (some slot, false)) : tss.type ≠ .slSection := by
  intro htype
  simp [tsSlot, EsStream.carriesVideo, EsStream.carriesAudio, EsType.isVideo, EsType.isAudio,
    EsType.isSub, htype] at h

theorem tsMp4Type_synced (env : TsEnv T) (pid : Nat) (tables : T) (tss : EsStream) (synced : Bool) :
    tsMp4Type env pid tables { tss with isSynced := synced } =
      { tsMp4Type env pid tables tss with isSynced := synced } := by
  rw [tsMp4Type, tsMp4Type]
  split
  · split
    · rfl
    · rfl
  · rfl

/-- The payload of a packet is found behind its adaptation field. -/
theorem tsAdaptation_carries {w : TsWire junk} (h : w.Carries c) {r : Reader}
    (hrest : r.rest = w.body ++ rest) :
    ∃ rap r', tsAdaptation w.head.afc junk r = (some (c.data.length, rap), r') ∧
      r'.rest = c.data ++ rest := by
  have hchar := w.readChar_body hrest
  have hlen := w.body_length
  rcases tsAdaptation_reads w.head.afc junk r with
    ⟨bufSize, rap, n, heq, hn, -, hskip⟩ | ⟨hafc, hc, -⟩ | ⟨hafc, hc, -⟩
  · refine ⟨rap, r.skip n, ?_, ?_⟩
    · rcases h.payload with ⟨hafc, hdata⟩ | ⟨hafc, hlt, hdata⟩
      · rw [if_neg (by omega)] at hskip
        rw [heq, hdata, hlen, (by omega : bufSize = 184)]
      · rw [if_pos (by omega), hchar] at hskip
        have hsize : bufSize = 184 - ((w.body.headD 0).toNat + 1) := by omega
        rw [heq, hdata, List.length_drop, hlen, hsize]
    · have hrest' : (r.skip n).rest = (w.body ++ rest).drop n := by rw [← hrest]; rfl
      rcases h.payload with ⟨hafc, hdata⟩ | ⟨hafc, hlt, hdata⟩
      · rw [if_neg (by omega)] at hskip
        rw [hrest', hdata, (by omega : n = 0), List.drop_zero]
      · rw [if_pos (by omega), hchar] at hskip
        rw [hrest', hdata, (by omega : n = (w.body.headD 0).toNat + 1),
          List.drop_append_of_le_length (by omega)]
  · rcases h.payload with ⟨hafc', -⟩ | ⟨-, hlt, -⟩
    · omega
    · omega
  · rcases h.payload with ⟨hafc', -⟩ | ⟨-, hlt, -⟩
    · omega
    · omega

theorem tsAddStart_header (env : TsEnv T) (h : TsHead) (tss : EsStream) {st : TsState T}
    (hsh : (st.streams h.pid).sh = true) : tsAddStart env h tss st = st := by
  rw [tsAddStart, tsAddStream, if_pos hsh, ite_self]

/-- A payload of a selected stream is read to the channel of the stream. -/
theorem tsContent_selected (env : TsEnv T) (h : TsHead) (rap : Bool) (es : EsStream)
    (st : TsState T) {slot : Slot} (ch : Channel) (hok : FifosOk st)
    (hrest : st.reader.rest = data ++ rest) (htyped : tsMp4Type env h.pid st.tables tss = ch.tss)
    (hfifo : st.fifo slot = ch.fifo) (hqueue : st.queue slot = ch.queue)
    (hsel : Selected env st slot h.pid ch.tss) :
    ∃ retv r, tsContent env false h data.length rap tss es st =
      .ok (tsDispatch env false h data (some slot) rap (env.typeFromPmt h.pid st.tables) retv
        ch.tss es ((st.moveTo r).put h.pid slot ((ch.flushIf h.starts).feed data))) := by
  have hput : st.setPid h.pid ch.tss = st.put h.pid slot ch := setPid_eq_put hfifo hqueue
  have hslot : tsSlot h.pid ch.tss (st.put h.pid slot ch) = (some slot, false) := hsel.slot
  have hfifos : FifosOk (st.put h.pid slot ch) := hput ▸ hok
  obtain ⟨retv, r, hfeed⟩ :=
    put_tsFeed env h rap (env.typeFromPmt h.pid st.tables) ch.tss es hfifos hrest
  rw [tsContent, htyped, hput, if_neg Bool.false_ne_true, tsAddStart_header]
  · simp only [hslot]
    exact ⟨retv, r, hfeed⟩
  · exact hsel.header

/-- The packet is found at its sync byte. -/
structure Found {junk : Nat} (st : TsState T) (w : TsWire junk) : Prop where
  packetSize : st.packetSize = tsPacketSize + junk
  eof : st.reader.eof = false
  rest : ∃ skipped rest, tsSyncByte ∉ skipped ∧ st.reader.rest = skipped ++ (w.bytes ++ rest)

/-- The channel of a selected stream, up to the type that is not known yet. -/
structure Holds (env : TsEnv T) (st : TsState T) (slot : Slot) (pid : Nat) (ch : Channel) :
    Prop where
  tss : ∃ tss, st.pids pid = some tss ∧ tsMp4Type env pid st.tables tss = ch.tss
  fifo : st.fifo slot = ch.fifo
  queue : st.queue slot = ch.queue
  selected : Selected env st slot pid ch.tss

theorem Holds.moveTo {st : TsState T} {slot : Slot} {pid : Nat} {ch : Channel}
    (h : Holds env st slot pid ch) (r : Reader) : Holds env (st.moveTo r) slot pid ch :=
  ⟨h.tss, h.fifo, h.queue, h.selected.lo, h.selected.hi, h.selected.slot, h.selected.header,
    h.selected.noPmt⟩

theorem tsMp4Type_isSynced (env : TsEnv T) (pid : Nat) (tables : T) (tss : EsStream) :
    (tsMp4Type env pid tables tss).isSynced = tss.isSynced := by
  rw [tsMp4Type]
  split
  · split
    · rfl
    · rfl
  · rfl

/-- A packet of a selected stream is read to the channel of the stream. -/
theorem tsPacket_carries {w : TsWire junk} (h : w.Carries c) (env : TsEnv T) (es : EsStream)
    {st : TsState T} {slot : Slot} {ch : Channel} (hok : FifosOk st)
    (hsize : st.packetSize = tsPacketSize + junk) (hrest : st.reader.rest = w.body ++ rest)
    (hholds : Holds env st slot c.pid ch) (hsync : (ch.tss.isSynced || c.isStart) = true) :
    ∃ rap retv r, tsPacket env false w.head es st =
      .ok (tsDispatch env false w.head c.data (some slot) rap (env.typeFromPmt c.pid st.tables) retv
        ch.synced.tss es ((st.moveTo r).put c.pid slot
          ((ch.synced.flushIf c.isStart).feed c.data))) := by
  obtain ⟨tss, htss, htyped⟩ := hholds.tss
  have hstarts : w.head.starts = c.isStart := by
    rw [TsHead.starts, h.noError, h.isStart, Bool.not_false, Bool.and_true]
  have hsynced : (tss.isSynced || c.isStart) = true := by
    rw [← tsMp4Type_isSynced env c.pid st.tables, htyped]
    exact hsync
  have hrejected : w.head.rejected st.keepBroken tss.isSynced = false := by
    have hafc : w.head.afc % 2 = 1 := by
      rcases h.payload with ⟨hafc, -⟩ | ⟨hafc, -⟩ <;> omega
    have hlo := hholds.selected.lo
    have hhi := hholds.selected.hi
    rw [Bool.or_comm] at hsynced
    simp only [TsHead.rejected, hstarts, hsynced, h.noError, h.pid]
    simp
    omega
  obtain ⟨rap, r, hadapt, hdata⟩ := tsAdaptation_carries h hrest
  have hjunk : st.packetSize - tsPacketSize = junk := by omega
  let read : TsState T := (st.setPid c.pid { tss with isSynced := true }).moveTo r
  have hput (r' : Reader) (ch' : Channel) :
      (read.moveTo r').put c.pid slot ch' = (st.moveTo r').put c.pid slot ch' := by
    simp only [read, TsState.put, TsState.setPid, TsState.moveTo, TsState.mk.injEq, true_and,
      and_true]
    funext i
    split
    · rfl
    · rfl
  have htyped' : tsMp4Type env w.head.pid read.tables { tss with isSynced := true } =
      ch.synced.tss := by
    rw [h.pid, tsMp4Type_synced, Channel.synced, ← htyped]
    rfl
  have hsel' : Selected env read slot w.head.pid ch.synced.tss := by
    rw [h.pid]
    exact ⟨hholds.selected.lo, hholds.selected.hi, hholds.selected.slot, hholds.selected.header,
      hholds.selected.noPmt⟩
  obtain ⟨retv, r', hcontent⟩ := tsContent_selected env w.head rap es read ch.synced
    (hok.moveTo r) hdata htyped' hholds.fifo hholds.queue hsel'
  refine ⟨rap, retv, r', ?_⟩
  rw [tsPacket]
  simp only [h.pid, htss, Option.getD_some, h.noError, hrejected, hstarts, hjunk, hsynced,
    Bool.false_and, Bool.false_eq_true, if_false, setPid_reader, hadapt]
  rw [h.pid, hput, hstarts] at hcontent
  exact hcontent

/-! ## Iterations for a selected stream -/

theorem tsDispatch_selected {h : TsHead} {slot : Slot} {rap : Bool} {pidType : EsType}
    {retv : Nat} {es : EsStream} {st : TsState T} (hlo : 16 ≤ h.pid)
    (htype : tss.type ≠ .slSection) (hprog : env.progIdInPat h.pid st.tables = -1) :
    tsDispatch env false h data (some slot) rap pidType retv tss es st =
      if h.starts then tsStart env h.pid data (some slot) rap pidType retv tss es st
      else tsContinue h.pid data.length (some slot) tss es st := by
  rw [tsDispatch]
  simp only [hprog, htype]
  rw [if_neg (by omega), if_neg (by simp), if_neg (by simp), if_neg (by simp)]

theorem Channel.flushIf_tss (due : Bool) (ch : Channel) : (ch.flushIf due).tss = ch.tss := by
  cases due
  · rfl
  · rw [Channel.flushIf, if_pos rfl, Channel.flush]
    split
    · rfl
    · split
      · rfl
      · rfl

/-- An iteration that finds a packet of a selected stream. -/
theorem tsIteration_carries {w : TsWire junk} (h : w.Carries c) (env : TsEnv T) (es : EsStream)
    {st : TsState T} {slot : Slot} {ch : Channel} (hok : FifosOk st) (hfound : Found st w)
    (hholds : Holds env st slot c.pid ch) (hsync : (ch.tss.isSynced || c.isStart) = true) :
    ∃ rap retv r, tsIteration env false es st = .ok (
      let ch' := (ch.synced.flushIf c.isStart).feed c.data
      let st' := (st.moveTo r).put c.pid slot ch'
      if c.isStart then
        tsStart env c.pid c.data (some slot) rap (env.typeFromPmt c.pid st.tables) retv ch'.tss
          { es with isSynced := false } st'
      else
        tsContinue c.pid c.data.length (some slot) ch'.tss { es with isSynced := false } st') := by
  obtain ⟨skipped, rest, hskipped, hrest⟩ := hfound.rest
  obtain ⟨-, -, hiter⟩ := tsIteration_found w env false es hskipped hfound.eof hrest
  obtain ⟨rap, retv, r, hpacket⟩ := tsPacket_carries h env { es with isSynced := false }
    (hok.moveTo ⟨st.reader.pos + skipped.length + 4, w.body ++ w.trailer ++ rest, false⟩)
    hfound.packetSize (List.append_assoc _ _ _) (hholds.moveTo _) hsync
  have hstarts : w.head.starts = c.isStart := by
    rw [TsHead.starts, h.noError, h.isStart, Bool.not_false, Bool.and_true]
  have htss : ((ch.synced.flushIf c.isStart).feed c.data).tss = ch.synced.tss :=
    Channel.flushIf_tss c.isStart ch.synced
  have hsection : ch.synced.tss.type ≠ .slSection := tsSlot_section hholds.selected.slot
  refine ⟨rap, retv, r, ?_⟩
  rw [hiter, hpacket, tsDispatch_selected (by rw [h.pid]; exact hholds.selected.lo) hsection
    (by rw [h.pid]; exact hholds.selected.noPmt), hstarts, h.pid]
  dsimp only
  rw [htss]
  rfl

/-- An iteration that finds the start of a PES packet of a selected stream. -/
theorem tsIteration_start {junk : Nat} {w : TsWire junk} {c : Chunk} (h : w.Carries c)
    (hstart : c.isStart = true) {env : TsEnv T} {es es' : EsStream} {st : TsState T} {slot : Slot}
    {ch : Channel} (hok : FifosOk st) (hfound : Found st w) (hholds : Holds env st slot c.pid ch)
    (hparse : pesParse2 env (env.memory c.data) c.data.length (env.typeFromPmt c.pid st.tables)
      c.pid st.tables { es with isSynced := false } = (true, st.tables, es')) :
    ∃ o es'' r rap, tsIteration env false es st =
      .ok (o, es'', (st.moveTo r).put c.pid slot (ch.startPes c.data rap es')) := by
  obtain ⟨rap, retv, r, hiter⟩ := tsIteration_carries h env es hok hfound hholds
    (by rw [hstart, Bool.or_true])
  rw [hstart] at hiter
  dsimp only at hiter
  have htables : ((st.moveTo r).put c.pid slot ((ch.synced.flushIf true).feed c.data)).tables =
      st.tables := rfl
  rw [if_pos rfl, tsStart, htables, hparse] at hiter
  obtain ⟨o, es'', hbegin⟩ := put_tsBegin (st.moveTo r) c.pid slot
    ((ch.synced.flushIf true).feed c.data) c.data rap retv es'
  exact ⟨o, es'', r, rap, hiter.trans (congrArg _ hbegin)⟩

/-- An iteration that finds the continuation of a PES packet of a selected stream. -/
theorem tsIteration_continue {w : TsWire junk} (h : w.Carries c) (hstart : c.isStart = false)
    (env : TsEnv T) (es : EsStream) {st : TsState T} {slot : Slot} {ch : Channel}
    (hok : FifosOk st) (hfound : Found st w) (hholds : Holds env st slot c.pid ch)
    (hsync : ch.tss.isSynced = true) :
    ∃ o es'' r, tsIteration env false es st =
      .ok (o, es'', (st.moveTo r).put c.pid slot (ch.continuePes c.data)) := by
  obtain ⟨rap, retv, r, hiter⟩ := tsIteration_carries h env es hok hfound hholds
    (by rw [hsync, Bool.true_or])
  rw [hstart] at hiter
  dsimp only at hiter
  rw [if_neg Bool.false_ne_true] at hiter
  obtain ⟨o, es', hmore⟩ := put_tsContinue (st.moveTo r) c.pid slot (ch.synced.feed c.data)
    c.data.length { es with isSynced := false }
  exact ⟨o, es', r, hiter.trans (congrArg _ hmore)⟩

end MPlayer
