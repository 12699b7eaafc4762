import MPlayer.Ts.Parse

/-!
# Packet boundaries

Where `ts_parse` looks for the next sync byte after a packet.  What it leaves of a packet that
it does not want is searched too.
-/

namespace MPlayer

open Lib

variable {T : Type}

/-! ## What an iteration keeps -/

/-- The room of the packet that is filled is `buffer_size`. -/
def Fifo.Ok (fifo : Fifo) : Prop := ∀ pack, fifo.pack = some pack → pack.len = fifo.bufferSize

/-- All buffers are in order. -/
def FifosOk (st : TsState T) : Prop := ∀ slot, (st.fifo slot).Ok

variable {st st' : TsState T} {fifo : Fifo} {junk : Nat}

theorem FifosOk.moveTo (h : FifosOk st) (r : Reader) :
    FifosOk { st with reader := r } := fun slot => h slot

theorem Fifo.Ok.empty (offset bufferSize : Nat) : Fifo.Ok ⟨none, offset, bufferSize⟩ := by
  intro pack h
  cases h

theorem Fifo.Ok.map (h : fifo.Ok) (f : TsPack → TsPack) (hf : ∀ pack, (f pack).len = pack.len) :
    Fifo.Ok { fifo with pack := fifo.pack.map f } := by
  intro pack hpack
  obtain ⟨pack', h', rfl⟩ := Option.map_eq_some_iff.1 hpack
  exact (hf pack').trans (h pack' h')

theorem Fifo.Ok.grow (h : fifo.Ok) (sz : Nat) : (fifo.grow sz).Ok := h

theorem Fifo.Ok.setPts (h : fifo.Ok) (pts : Time) : (fifo.setPts pts).Ok :=
  h.map (fun pack => { pack with pts := some pts }) fun _ => rfl

theorem Fifo.Ok.move (h : fifo.Ok) (bytes : List UInt8) : (fifo.move bytes).Ok :=
  h.map (fun pack => { pack with buffer := pack.buffer.take fifo.offset ++ bytes }) fun _ => rfl

/-- The stream and the room of the buffers are left alone. -/
structure Kept (st st' : TsState T) : Prop where
  reader : st'.reader = st.reader
  packetSize : st'.packetSize = st.packetSize
  fifos : FifosOk st → FifosOk st'

theorem Kept.refl (st : TsState T) : Kept st st := ⟨rfl, rfl, id⟩

theorem Kept.trans {st'' : TsState T} (h : Kept st st') (h' : Kept st' st'') : Kept st st'' :=
  ⟨h'.reader.trans h.reader, h'.packetSize.trans h.packetSize, h'.fifos ∘ h.fifos⟩

theorem setPid_kept (st : TsState T) (pid : Nat) (tss : EsStream) : Kept st (st.setPid pid tss) :=
  ⟨rfl, rfl, id⟩

theorem tables_kept (st : TsState T) (tables : T) : Kept st { st with tables := tables } :=
  ⟨rfl, rfl, id⟩

theorem setFifo_kept {slot : Slot} (h : FifosOk st → fifo.Ok) : Kept st (st.setFifo slot fifo) := by
  refine ⟨rfl, rfl, fun hok slot' => ?_⟩
  by_cases heq : slot' = slot
  · simp only [TsState.setFifo, if_pos heq]
    exact h hok
  · simp only [TsState.setFifo, if_neg heq]
    exact hok slot'

theorem addPacket_kept (st : TsState T) (slot : Slot) (pack : TsPack) :
    Kept st (st.addPacket slot pack) := ⟨rfl, rfl, id⟩

theorem fillPacket_kept (slot : Slot) (st : TsState T) : Kept st (fillPacket slot st).2 := by
  have hempty (st : TsState T) (offset bufferSize : Nat) :
      Kept st (st.setFifo slot ⟨none, offset, bufferSize⟩) :=
    setFifo_kept fun _ => Fifo.Ok.empty offset bufferSize
  rw [fillPacket]
  split
  · exact hempty st _ _
  · split
    · exact hempty st _ _
    · exact (addPacket_kept st slot _).trans (hempty _ _ _)

theorem fillIf_kept (due : Bool) (slot : Slot) (retv : Nat) (st : TsState T) :
    Kept st (fillIf due slot retv st).2 := by
  cases due
  · exact Kept.refl st
  · exact fillPacket_kept slot st

theorem newSh_kept {env : TsEnv T} {slot : Slot} {id : Int} {pid : Nat}
    (h : newSh env st slot id pid = some st') : Kept st st' := by
  rw [newSh] at h
  split at h
  · cases h
  split at h
  · cases h
    exact Kept.refl st
  split at h
  · cases h
    exact ⟨rfl, rfl, fun hok => hok⟩
  · cases h
    exact ⟨rfl, rfl, fun hok => hok⟩

theorem addSlot_kept (env : TsEnv T) (slot : Slot) (pid : Nat) (st : TsState T) :
    Kept st (addSlot env slot pid st) := by
  rw [addSlot]
  split
  · split
    · exact Kept.refl st
    next st' h => exact (newSh_kept h).trans ⟨rfl, rfl, fun hok => hok⟩
  · exact Kept.refl st

theorem tsAddStream_kept (env : TsEnv T) (pid : Nat) (tss : EsStream) (st : TsState T) :
    Kept st (tsAddStream env pid tss st) := by
  have hif (c : Bool) (slot : Slot) (st : TsState T) :
      Kept st (if c then addSlot env slot pid st else st) := by
    cases c
    · exact Kept.refl st
    · exact addSlot_kept env slot pid st
  rw [tsAddStream]
  split
  · exact Kept.refl st
  · exact ((hif _ .audio st).trans (hif _ .video _)).trans (hif _ .sub _)

theorem tsContinue_kept (pid bufSize : Nat) (slot : Option Slot) (tss es : EsStream)
    (st : TsState T) : Kept st (tsContinue pid bufSize slot tss es st).2.2 := by
  rw [tsContinue]
  dsimp only
  split
  · exact setPid_kept st pid _
  · cases slot with
    | none => exact setPid_kept st pid _
    | some slot =>
      dsimp only
      split
      · exact ((setPid_kept st pid _).trans
          (setFifo_kept fun hok => ((hok slot).grow _).setPts _)).trans (fillPacket_kept slot _)
      · exact (setPid_kept st pid _).trans (setFifo_kept fun hok => (hok slot).grow _)

theorem tsProbe_kept (pid : Nat) (tss es : EsStream) (st : TsState T) :
    Kept st (tsProbe pid tss es st).2.2 := by
  rw [tsProbe]
  split
  · exact setPid_kept st pid _
  · exact setPid_kept st pid _

theorem tsBegin_kept (pid : Nat) (data : List UInt8) (slot : Slot) (retv : Nat)
    (tss es : EsStream) (st : TsState T) :
    Kept st (tsBegin pid data slot retv tss es st).2.2 :=
  ((setPid_kept st pid _).trans
    (setFifo_kept fun hok => (((hok slot).move _).grow _).setPts _)).trans (fillIf_kept _ slot _ _)

theorem tsStart_kept (env : TsEnv T) (pid : Nat) (data : List UInt8) (slot : Option Slot)
    (rap : Bool) (pidType : EsType) (retv : Nat) (tss es : EsStream) (st : TsState T) :
    Kept st (tsStart env pid data slot rap pidType retv tss es st).2.2 := by
  rw [tsStart]
  split
  · exact (tables_kept st _).trans (setPid_kept _ pid _)
  · cases slot with
    | none => exact (tables_kept st _).trans (tsProbe_kept pid _ _ _)
    | some slot => exact (tables_kept st _).trans (tsBegin_kept pid data slot retv _ _ _)

theorem tsDispatch_kept (env : TsEnv T) (probe : Bool) (h : TsHead) (data : List UInt8)
    (slot : Option Slot) (rap : Bool) (pidType : EsType) (retv : Nat) (tss es : EsStream)
    (st : TsState T) :
    Kept st (tsDispatch env probe h data slot rap pidType retv tss es st).2.2 := by
  rw [tsDispatch]
  dsimp only
  split
  · exact tables_kept st _
  split
  · exact tables_kept st _
  split
  · exact ⟨rfl, rfl, id⟩
  split
  · exact Kept.refl st
  split
  · exact tsStart_kept env h.pid data slot rap pidType retv tss es st
  · exact tsContinue_kept h.pid data.length slot tss es st

/-! ## Reading forward -/

/-- Something ends with `n` bytes of the stream read and the buffers in order. -/
def Reads (st : TsState T) (n : Nat) (res : Except Fault (TsResult T)) : Prop :=
  ∃ o es st', res = .ok (o, es, st') ∧ st'.reader = st.reader.skip n ∧
    st'.packetSize = st.packetSize ∧ FifosOk st'

theorem Kept.reads (h : Kept st st') {n : Nat} {res : Except Fault (TsResult T)}
    (hres : Reads st' n res) : Reads st n res := by
  obtain ⟨o, es, st'', heq, hreader, hsize, hok⟩ := hres
  exact ⟨o, es, st'', heq, by rw [hreader, h.reader], hsize.trans h.packetSize, hok⟩

theorem Kept.ends {res : TsResult T} (h : Kept st' res.2.2) {n : Nat}
    (hreader : st'.reader = st.reader.skip n) (hsize : st'.packetSize = st.packetSize)
    (hok : FifosOk st') : Reads st n (.ok res) :=
  ⟨res.1, res.2.1, res.2.2, rfl, h.reader.trans hreader, h.packetSize.trans hsize, h.fifos hok⟩

theorem Fifo.Ok.ready (h : fifo.Ok) : ∃ pack, fifo.ready.pack = some pack ∧
    pack.len = fifo.ready.bufferSize := by
  rw [Fifo.ready]
  split
  next pack hpack => exact ⟨pack, hpack, h pack hpack⟩
  · exact ⟨_, rfl, rfl⟩

theorem Fifo.Ok.makeRoom (h : fifo.Ok) (bufSize : Nat) :
    (fifo.ready.makeRoom bufSize).Ok ∧ ∃ pack, (fifo.ready.makeRoom bufSize).pack = some pack ∧
      (fifo.ready.makeRoom bufSize).offset + bufSize ≤ pack.len := by
  obtain ⟨pack, hpack, hlen⟩ := h.ready
  by_cases hroom : fifo.ready.bufferSize < fifo.ready.offset + bufSize
  · rw [Fifo.makeRoom, if_pos hroom, hpack]
    refine ⟨?_, _, rfl, Nat.le_add_right _ _⟩
    intro pack' hpack'
    cases hpack'
    rfl
  · rw [Fifo.makeRoom, if_neg hroom]
    refine ⟨?_, pack, hpack, by omega⟩
    intro pack' hpack'
    rw [hpack] at hpack'
    cases hpack'
    exact hlen

/-- There is room for what is written. -/
theorem Fifo.Ok.write (h : fifo.Ok) (data : List UInt8) (bufSize : Nat) :
    (fifo.ready.makeRoom bufSize).write data bufSize =
      .ok ((fifo.ready.makeRoom bufSize).move data) := by
  obtain ⟨_, pack, hpack, hlen⟩ := h.makeRoom bufSize
  rw [Fifo.write, hpack]
  exact if_neg (by omega)

theorem writePayload_kept (data : List UInt8) (bufSize : Nat) (slot : Option Slot)
    (hok : FifosOk st) (hsize : st.packetSize ≤ tsFecPacketSize) :
    ∃ st', writePayload data bufSize slot st = .ok st' ∧ Kept st st' := by
  cases slot with
  | none => exact ⟨st, if_neg (by omega), Kept.refl st⟩
  | some slot =>
    rw [writePayload, (hok slot).write, ok_bind]
    exact ⟨_, rfl, setFifo_kept fun _ => ((hok slot).makeRoom bufSize).1.move data⟩

theorem tsQueue_kept (h : TsHead) (slot : Option Slot) (st : TsState T) :
    Kept st (tsQueue h slot st).2 := by
  cases slot with
  | none => exact Kept.refl st
  | some slot => exact fillIf_kept _ slot 0 st

theorem tsFeed_reads (env : TsEnv T) (probe : Bool) (h : TsHead) (bufSize : Nat)
    (slot : Option Slot) (rap : Bool) (pidType : EsType) (tss es : EsStream) (hok : FifosOk st)
    (hsize : st.packetSize ≤ tsFecPacketSize) :
    Reads st (bufSize + (st.packetSize - tsPacketSize))
      (tsFeed env probe h bufSize slot rap pidType tss es st) := by
  have hqueue := tsQueue_kept h slot st
  obtain ⟨st', hwrite, hkept⟩ := writePayload_kept
    ((tsQueue h slot st).2.reader.read bufSize).1 bufSize slot (hqueue.fifos hok)
    (by rw [hqueue.packetSize]; exact hsize)
  have hst := hqueue.trans hkept
  rw [tsFeed]
  rw [hwrite, ok_bind, hqueue.reader]
  by_cases hshort : (st.reader.read bufSize).1.length < bufSize
  · rw [if_pos hshort]
    refine Kept.ends (Kept.refl _) ?_ hst.packetSize ((hst.fifos hok).moveTo _)
    have hlt : st.reader.rest.length < bufSize := by
      simp only [Reader.read, List.length_take] at hshort
      omega
    rw [Reader.skip_of_short hlt, Reader.skip]
  · rw [if_neg hshort]
    refine Kept.ends (tsDispatch_kept env probe h _ slot rap pidType _ tss es _) ?_
      hst.packetSize ((hst.fifos hok).moveTo _)
    rw [hst.packetSize]
    exact Reader.skip_skip st.reader bufSize _

theorem Kept.feeds (hkept : Kept st st') (env : TsEnv T) (probe : Bool) (h : TsHead)
    (bufSize : Nat) (slot : Option Slot) (rap : Bool) (pidType : EsType) (tss es : EsStream)
    (hok : FifosOk st) (hsize : st.packetSize ≤ tsFecPacketSize) :
    Reads st (bufSize + (st.packetSize - tsPacketSize))
      (tsFeed env probe h bufSize slot rap pidType tss es st') := by
  refine hkept.reads ?_
  rw [← hkept.packetSize]
  exact tsFeed_reads env probe h bufSize slot rap pidType tss es (hkept.fifos hok)
    (by rw [hkept.packetSize]; exact hsize)

theorem tsAddStart_kept (env : TsEnv T) (h : TsHead) (tss : EsStream) (st : TsState T) :
    Kept st (tsAddStart env h tss st) := by
  rw [tsAddStart]
  split
  · exact tsAddStream_kept env h.pid tss st
  · exact Kept.refl st

theorem tsContent_reads (env : TsEnv T) (probe : Bool) (h : TsHead) (bufSize : Nat) (rap : Bool)
    (tss es : EsStream) (hok : FifosOk st) (hsize : st.packetSize ≤ tsFecPacketSize) :
    Reads st (bufSize + (st.packetSize - tsPacketSize))
      (tsContent env probe h bufSize rap tss es st) := by
  have hset := setPid_kept st h.pid (tsMp4Type env h.pid st.tables tss)
  rw [tsContent]
  split
  · exact hset.feeds env probe h bufSize none rap _ _ es hok hsize
  · have hadd := hset.trans (tsAddStart_kept env h (tsMp4Type env h.pid st.tables tss) _)
    dsimp only
    split
    · refine Kept.ends (Kept.refl _) ?_ hadd.packetSize ((hadd.fifos hok).moveTo _)
      rw [hadd.packetSize, hadd.reader]
    · exact hadd.feeds env probe h bufSize _ rap _ _ es hok hsize

/-- The adaptation field leaves nothing of the packet, or its last byte, or the trailer, or a
payload. -/
theorem tsAdaptation_reads (afc junk : Nat) (r : Reader) :
    (∃ bufSize rap n, tsAdaptation afc junk r = (some (bufSize, rap), r.skip n) ∧
      n + bufSize = 184 ∧ (1 < afc → 0 ≤ r.readChar.1 ∧ r.readChar.1 < 183) ∧
      (n : Int) = if 1 < afc then r.readChar.1 + 1 else 0) ∨
    1 < afc ∧ (r.readChar.1 < 0 ∨ 183 < r.readChar.1) ∧
      tsAdaptation afc junk r = (none, r.skip (183 + junk)) ∨
    1 < afc ∧ r.readChar.1 = 183 ∧ tsAdaptation afc junk r = (none, r.skip 184) := by
  have hskip : r.skip 0 = r := by simp [Reader.skip, Reader.read]
  rw [tsAdaptation]
  split
  case isTrue hle =>
    exact .inl ⟨184, false, 0, by rw [hskip], rfl, fun h => by omega, (if_neg (by omega)).symm⟩
  case isFalse hlt =>
    have hsnd := r.readChar_snd
    generalize r.readChar = char at hsnd ⊢
    obtain ⟨c, r'⟩ := char
    dsimp only at hsnd ⊢
    subst hsnd
    split
    case isTrue hbroken =>
      refine .inr (.inl ⟨by omega, hbroken, ?_⟩)
      rw [Reader.skip_skip]
      congr 2
      omega
    case isFalse hok =>
      split
      case isTrue hzero =>
        refine .inl ⟨183, false, 1, rfl, rfl, fun _ => by omega, ?_⟩
        rw [if_pos (by omega), hzero]
        rfl
      case isFalse hpos =>
        have hread (n : Nat) : (((r.skip 1).readChar.2.read n).2) = r.skip (2 + n) := by
          rw [Reader.readChar_snd, ← Reader.skip, Reader.skip_skip, Reader.skip_skip,
            ← Nat.add_assoc]
        by_cases hfull : 183 - c.toNat = 0
        · refine .inr (.inr ⟨by omega, by omega, ?_⟩)
          rw [hread, if_pos hfull]
          congr 2
          omega
        · rw [hread, if_neg hfull]
          refine .inl ⟨183 - c.toNat, _, 2 + (c.toNat - 1), rfl, by omega, fun _ => by omega, ?_⟩
          rw [if_pos (by omega)]
          omega

/-- How many bytes behind its header `ts_parse` reads of a packet. -/
def tsConsumed (st : TsState T) (h : TsHead) : Nat :=
  let junk := st.packetSize - tsPacketSize
  let c := st.reader.readChar.1
  if h.rejected st.keepBroken ((st.pids h.pid).getD (newPid .unknown)).isSynced then 183 + junk
  else if 1 < h.afc ∧ (c < 0 ∨ 183 < c) then 183 + junk
  else if 1 < h.afc ∧ c = 183 then 184
  else 184 + junk

theorem tsPacket_reads (env : TsEnv T) (probe : Bool) (h : TsHead) (es : EsStream)
    (hok : FifosOk st) (hsize : st.packetSize ≤ tsFecPacketSize) :
    Reads st (tsConsumed st h) (tsPacket env probe h es st) := by
  rw [tsPacket, tsConsumed]
  generalize (if h.tsError && !st.keepBroken then (st.pids h.pid).getD (newPid .unknown)
    else _) = tss
  have hset := setPid_kept st h.pid tss
  split
  · exact Kept.ends (Kept.refl _) rfl rfl ((hset.fifos hok).moveTo _)
  · have hread : (st.setPid h.pid tss).reader = st.reader := rfl
    rw [hread]
    have hend (n : Nat) : Reads st n (.ok (none, es, { st.setPid h.pid tss with
        reader := st.reader.skip n })) :=
      Kept.ends (Kept.refl _) rfl rfl ((hset.fifos hok).moveTo _)
    rcases tsAdaptation_reads h.afc (st.packetSize - tsPacketSize) st.reader with
      ⟨bufSize, rap, n, heq, hn, hc, _⟩ | ⟨hafc, hc, heq⟩ | ⟨hafc, hc, heq⟩
    · rw [if_neg (by omega), if_neg (by omega), heq]
      obtain ⟨o, es', st', hres, hreader, hsize', hok'⟩ := tsContent_reads env probe h bufSize rap
        tss es ((hset.fifos hok).moveTo (st.reader.skip n)) hsize
      refine ⟨o, es', st', hres, ?_, hsize', hok'⟩
      rw [hreader]
      dsimp only
      rw [Reader.skip_skip, ← Nat.add_assoc, hn]
      rfl
    · rw [if_pos ⟨hafc, hc⟩, heq]
      exact hend _
    · rw [if_neg (by omega), if_pos ⟨hafc, hc⟩, heq]
      exact hend _

/-! ## Sync bytes -/

/-- The bytes in front of the next sync byte are passed over. -/
theorem tsSyncFrom_append {skipped : List UInt8} (h : tsSyncByte ∉ skipped) (pos : Nat)
    (rest : List UInt8) :
    tsSyncFrom pos (skipped ++ tsSyncByte :: rest) =
      (true, ⟨pos + skipped.length + 1, rest, false⟩) := by
  induction skipped generalizing pos with
  | nil => exact if_pos rfl
  | cons b skipped ih =>
    rw [List.mem_cons, not_or] at h
    rw [List.cons_append, tsSyncFrom, if_neg (Ne.symm h.1), ih h.2, List.length_cons]
    congr 2
    omega

/-- A sync byte among the next bytes is found. -/
theorem tsSyncFrom_mem {bytes : List UInt8} (h : tsSyncByte ∈ bytes) (pos : Nat)
    (rest : List UInt8) :
    ∃ r, tsSyncFrom pos (bytes ++ rest) = (true, r) ∧ r.pos ≤ pos + bytes.length := by
  obtain ⟨skipped, behind, rfl, hskipped⟩ := List.eq_append_cons_of_mem h
  rw [List.append_assoc, List.cons_append, tsSyncFrom_append hskipped]
  refine ⟨_, rfl, ?_⟩
  rw [List.length_append, List.length_cons]
  dsimp only
  omega

theorem tsSyncFrom_none {bytes : List UInt8} (h : tsSyncByte ∉ bytes) (pos : Nat) :
    (tsSyncFrom pos bytes).1 = false := by
  induction bytes generalizing pos with
  | nil => rfl
  | cons b bytes ih =>
    rw [List.mem_cons, not_or] at h
    rw [tsSyncFrom, if_neg (Ne.symm h.1)]
    exact ih h.2 (pos + 1)

/-! ## Packets -/

/-- A transport packet with a trailer of `junk` bytes: the three bytes behind the sync byte, and
the rest. -/
structure TsWire (junk : Nat) where
  b1 : UInt8
  b2 : UInt8
  b3 : UInt8
  body : List UInt8
  trailer : List UInt8
  body_length : body.length = 184
  trailer_length : trailer.length = junk

/-- The bytes of a packet. -/
def TsWire.bytes {junk : Nat} (w : TsWire junk) : List UInt8 :=
  tsSyncByte :: w.b1 :: w.b2 :: w.b3 :: (w.body ++ w.trailer)

/-- What the header of a packet says. -/
def TsWire.head {junk : Nat} (w : TsWire junk) : TsHead := tsHead w.b1 w.b2 w.b3

/-- The bytes of a packet that `ts_parse` leaves to the search for the next sync byte: the last
one if the packet is rejected, the trailer if the adaptation field takes all of it. -/
def TsWire.unread {junk : Nat} (w : TsWire junk) (st : TsState T) : List UInt8 :=
  let c := (w.body.headD 0).toNat
  if w.head.rejected st.keepBroken ((st.pids w.head.pid).getD (newPid .unknown)).isSynced ∨
      1 < w.head.afc ∧ 183 < c then
    (w.body ++ w.trailer).drop (183 + junk)
  else if 1 < w.head.afc ∧ c = 183 then w.trailer
  else []

theorem TsWire.readChar_body (w : TsWire junk) {r : Reader} {rest : List UInt8}
    (hrest : r.rest = w.body ++ rest) : r.readChar.1 = ((w.body.headD 0).toNat : Int) := by
  match hbody : w.body, w.body_length with
  | b :: body, _ =>
    rw [hbody] at hrest
    rw [Reader.readChar_cons hrest]
    rfl

/-- What is read of a packet and what is left of it. -/
theorem TsWire.unread_eq (w : TsWire junk) (st : TsState T) {rest : List UInt8}
    (hsize : st.packetSize = tsPacketSize + junk)
    (hrest : st.reader.rest = w.body ++ w.trailer ++ rest) :
    tsConsumed st w.head ≤ 184 + junk ∧
      w.unread st = (w.body ++ w.trailer).drop (tsConsumed st w.head) := by
  have hjunk : st.packetSize - tsPacketSize = junk := by omega
  have hc := w.readChar_body (hrest.trans (List.append_assoc _ _ _))
  have htrailer : (w.body ++ w.trailer).drop 184 = w.trailer := List.drop_left' w.body_length
  have hall : (w.body ++ w.trailer).drop (184 + junk) = [] :=
    List.drop_of_length_le (by simp [w.body_length, w.trailer_length])
  rw [TsWire.unread, tsConsumed, hjunk, hc]
  generalize TsHead.rejected _ _ _ = rejected
  cases rejected with
  | true => exact ⟨by simp, by simp⟩
  | false =>
    simp only [Bool.false_eq_true, false_or, if_false]
    generalize (w.body.headD 0).toNat = c
    by_cases hbroken : 1 < w.head.afc ∧ 183 < c
    · have hbroken' : 1 < w.head.afc ∧ ((c : Int) < 0 ∨ 183 < (c : Int)) := by omega
      rw [if_pos hbroken, if_pos hbroken']
      exact ⟨by omega, rfl⟩
    · have hbroken' : ¬ (1 < w.head.afc ∧ ((c : Int) < 0 ∨ 183 < (c : Int))) := by omega
      rw [if_neg hbroken, if_neg hbroken']
      by_cases hfull : 1 < w.head.afc ∧ c = 183
      · have hfull' : 1 < w.head.afc ∧ (c : Int) = 183 := by omega
        rw [if_pos hfull, if_pos hfull', htrailer]
        exact ⟨by omega, rfl⟩
      · have hfull' : ¬ (1 < w.head.afc ∧ (c : Int) = 183) := by omega
        rw [if_neg hfull, if_neg hfull', hall]
        exact ⟨by omega, rfl⟩

/-- An iteration finds the packet behind the next sync byte. -/
theorem tsIteration_found {junk : Nat} (w : TsWire junk) (env : TsEnv T) (probe : Bool)
    (es : EsStream) {st : TsState T} {skipped rest : List UInt8} (hskipped : tsSyncByte ∉ skipped)
    (heof : st.reader.eof = false) (hrest : st.reader.rest = skipped ++ (w.bytes ++ rest)) :
    (tsSync st.reader).1 = true ∧ (tsSync st.reader).2.pos = st.reader.pos + skipped.length + 1 ∧
      tsIteration env probe es st = tsPacket env probe w.head { es with isSynced := false }
        { st with reader := ⟨st.reader.pos + skipped.length + 4, w.body ++ w.trailer ++ rest,
          false⟩ } := by
  have hsync : tsSync st.reader = (true, ⟨st.reader.pos + skipped.length + 1,
      [w.b1, w.b2, w.b3] ++ (w.body ++ w.trailer ++ rest), false⟩) := by
    rw [tsSync, heof, hrest]
    exact tsSyncFrom_append hskipped _ _
  have hread : (tsSync st.reader).2.read 3 = ([w.b1, w.b2, w.b3],
      ⟨st.reader.pos + skipped.length + 4, w.body ++ w.trailer ++ rest, false⟩) := by
    have hbytes : (tsSync st.reader).2.rest =
        [w.b1, w.b2, w.b3] ++ (w.body ++ w.trailer ++ rest) := by rw [hsync]
    have hthree := Reader.read_append hbytes
    rw [hsync] at hthree ⊢
    exact hthree
  refine ⟨by rw [hsync], by rw [hsync], ?_⟩
  rw [hsync] at hread
  rw [tsIteration, heof, hsync]
  simp only [Bool.false_eq_true, if_false, hread]
  rfl

/-- An iteration reads the packet behind the next sync byte, up to what it leaves unread. -/
theorem tsIteration_wire {junk : Nat} (w : TsWire junk) (env : TsEnv T) (probe : Bool)
    (es : EsStream) {st : TsState T} (hok : FifosOk st)
    (hsize : st.packetSize = tsPacketSize + junk) (hjunk : st.packetSize ≤ tsFecPacketSize)
    {skipped rest : List UInt8} (hskipped : tsSyncByte ∉ skipped) (heof : st.reader.eof = false)
    (hrest : st.reader.rest = skipped ++ (w.bytes ++ rest)) :
    ∃ o es' st' pos, tsIteration env probe es st = .ok (o, es', st') ∧ FifosOk st' ∧
      st'.packetSize = st.packetSize ∧ st'.reader = ⟨pos, w.unread st ++ rest, false⟩ ∧
      pos + (w.unread st).length = st.reader.pos + skipped.length + (tsPacketSize + junk) := by
  obtain ⟨-, -, hiter⟩ := tsIteration_found w env probe es hskipped heof hrest
  let start : Reader := ⟨st.reader.pos + skipped.length + 4, w.body ++ w.trailer ++ rest, false⟩
  obtain ⟨o, es', st', hres, hreader, hsize', hok'⟩ :=
    tsPacket_reads env probe w.head { es with isSynced := false } (hok.moveTo start) hjunk
  have hunread := w.unread_eq { st with reader := start } hsize rfl
  have hsame : w.unread { st with reader := start } = w.unread st := rfl
  rw [hsame] at hunread
  generalize tsConsumed _ w.head = n at hreader hunread
  have hlen : ((w.body ++ w.trailer).take n).length = n := by
    rw [List.length_take, List.length_append, w.body_length, w.trailer_length]
    omega
  have hskip : start.skip n =
      start.advance ((w.body ++ w.trailer).take n) (w.unread st ++ rest) := by
    have hbytes : start.rest = (w.body ++ w.trailer).take n ++ (w.unread st ++ rest) := by
      rw [hunread.2, ← List.append_assoc, List.take_append_drop]
    conv => lhs; rw [← hlen]
    exact Reader.skip_append hbytes
  refine ⟨o, es', st', start.pos + n, hiter.trans hres, hok', hsize', ?_, ?_⟩
  · rw [hreader, hskip, Reader.advance, hlen]
  · rw [hunread.2, List.length_drop, List.length_append, w.body_length, w.trailer_length]
    simp only [tsPacketSize, start]
    omega

/-! ## Runs -/

/-- Where the next header is read. -/
def syncAt (st : TsState T) : Nat := (tsSync st.reader).2.pos - 1

/-- Iterations up to the end of the stream, with the states in which they looked for a sync
byte.  Between two iterations the rest of the player does what it likes, the stream and the room
of the buffers apart. -/
inductive SyncRun : TsState T → List (TsState T) → Prop
  | done {st : TsState T} (hend : (tsSync st.reader).1 = false) : SyncRun st []
  | step {st st1 st2 : TsState T} {sts : List (TsState T)} {env : TsEnv T} {probe : Bool}
      {es es' : EsStream} {o : Option Int} (hkept : Kept st st1)
      (hsync : (tsSync st1.reader).1 = true)
      (hiter : tsIteration env probe es st1 = .ok (o, es', st2)) (hrun : SyncRun st2 sts) :
      SyncRun st (st1 :: sts)

theorem tsSyncFrom_lt {pos : Nat} {bytes : List UInt8} (h : (tsSyncFrom pos bytes).1 = true) :
    (tsSyncFrom pos bytes).2.rest.length < bytes.length := by
  induction bytes generalizing pos with
  | nil => cases h
  | cons b bytes ih =>
    rw [tsSyncFrom] at h ⊢
    split at h
    next heq =>
      rw [if_pos heq]
      exact Nat.lt_succ_self _
    next hne =>
      rw [if_neg hne]
      exact Nat.lt_succ_of_lt (ih h)

/-- An iteration that finds a sync byte ends further on in the stream. -/
theorem tsIteration_ends (env : TsEnv T) (probe : Bool) (es : EsStream) (hok : FifosOk st)
    (hsize : st.packetSize ≤ tsFecPacketSize) (hsync : (tsSync st.reader).1 = true) :
    ∃ o es' st', tsIteration env probe es st = .ok (o, es', st') ∧ FifosOk st' ∧
      st'.packetSize = st.packetSize ∧ st'.reader.rest.length < st.reader.rest.length := by
  have heof : st.reader.eof = false := by
    cases h : st.reader.eof with
    | false => rfl
    | true => simp [tsSync, h] at hsync
  have hlt : (tsSync st.reader).2.rest.length < st.reader.rest.length := by
    simp only [tsSync, heof, Bool.false_eq_true, if_false] at hsync ⊢
    exact tsSyncFrom_lt hsync
  have hpair : tsSync st.reader = (true, (tsSync st.reader).2) := Prod.ext hsync rfl
  have hread (r : Reader) (n : Nat) : (r.read n).2.rest.length ≤ r.rest.length := by
    simp [Reader.read]
  rw [tsIteration, heof, hpair]
  simp only [Bool.false_eq_true, if_false]
  split
  next b1 b2 b3 r heq =>
    have hr : r = ((tsSync st.reader).2.read 3).2 := by rw [heq]
    obtain ⟨o, es', st', hres, hreader, hsize', hok'⟩ := tsPacket_reads env probe (tsHead b1 b2 b3)
      { es with isSynced := false } (hok.moveTo r) hsize
    refine ⟨o, es', st', hres, hok', hsize', ?_⟩
    rw [hreader, Reader.skip]
    exact Nat.lt_of_le_of_lt (hread _ _) (hr ▸ Nat.lt_of_le_of_lt (hread _ _) hlt)
  next r _ heq =>
    have hr : r = ((tsSync st.reader).2.read 3).2 := by rw [heq]
    exact ⟨_, _, _, rfl, hok.moveTo r, rfl, hr ▸ Nat.lt_of_le_of_lt (hread _ _) hlt⟩

/-- From every state the stream is read to its end. -/
theorem SyncRun.exists (env : TsEnv T) (n : Nat) : ∀ {st : TsState T}, st.reader.rest.length ≤ n →
    FifosOk st → st.packetSize ≤ tsFecPacketSize → ∃ sts, SyncRun st sts := by
  induction n with
  | zero =>
    intro st hlen hok hsize
    refine ⟨[], .done ?_⟩
    cases hsync : (tsSync st.reader).1 with
    | false => rfl
    | true =>
      obtain ⟨_, _, _, _, _, _, hlt⟩ := tsIteration_ends env false .zero hok hsize hsync
      omega
  | succ n ih =>
    intro st hlen hok hsize
    cases hsync : (tsSync st.reader).1 with
    | false => exact ⟨[], .done hsync⟩
    | true =>
      obtain ⟨o, es', st', hres, hok', hsize', hlt⟩ :=
        tsIteration_ends env false .zero hok hsize hsync
      obtain ⟨sts, hrun⟩ := ih (by omega) hok' (by rw [hsize']; exact hsize)
      exact ⟨st :: sts, .step (Kept.refl st) hsync hres hrun⟩

/-- Where the sync bytes of `n` packets of `size` bytes are. -/
def boundaries (start size n : Nat) : List Nat := (List.range n).map fun i => start + i * size

theorem boundaries_succ (start size n : Nat) :
    boundaries start size (n + 1) = start :: boundaries (start + size) size n := by
  simp only [boundaries, List.range_succ_eq_map, List.map_cons, List.map_map, Nat.zero_mul,
    Nat.add_zero, List.cons.injEq, true_and]
  refine List.map_congr_left fun i _ => ?_
  simp only [Function.comp_apply, Nat.succ_eq_add_one, Nat.add_mul, Nat.one_mul]
  omega

/-- Behind skipped bytes, the packets are found where they are exactly if none of them leaves a
sync byte unread. -/
theorem SyncRun.boundaries_iff {junk : Nat} : ∀ (packets : List (TsWire junk))
    (skipped : List UInt8) {st : TsState T} {sts : List (TsState T)}, SyncRun st sts → FifosOk st →
    st.packetSize = tsPacketSize + junk → st.packetSize ≤ tsFecPacketSize →
    st.reader.eof = false → st.reader.rest = skipped ++ packets.flatMap TsWire.bytes →
    tsSyncByte ∉ skipped →
    (sts.map syncAt = boundaries (st.reader.pos + skipped.length) (tsPacketSize + junk)
        packets.length ↔
      ∀ p ∈ sts.zip packets, tsSyncByte ∉ p.2.unread p.1)
  | [], skipped, st, sts, hrun, _, _, _, heof, hrest, hskipped => by
    have hend : (tsSync st.reader).1 = false := by
      rw [tsSync, heof, hrest, List.flatMap_nil, List.append_nil]
      exact tsSyncFrom_none hskipped _
    cases hrun with
    | done _ => simp [boundaries]
    | step hkept hsync _ _ =>
      rw [hkept.reader, hend] at hsync
      cases hsync
  | w :: packets, skipped, st, sts, hrun, hok, hsize, hjunk, heof, hrest, hskipped => by
    rw [List.flatMap_cons] at hrest
    cases hrun with
    | done hend =>
      have hsync : (tsSync st.reader).1 = true := by
        rw [tsSync, heof, hrest]
        exact congrArg Prod.fst (tsSyncFrom_append hskipped _ _)
      rw [hend] at hsync
      cases hsync
    | @step _ st1 st2 sts env probe es es' o hkept hsync hiter hrun =>
      rw [← hkept.reader] at heof hrest ⊢
      rw [← hkept.packetSize] at hsize hjunk
      obtain ⟨_, hpos, _⟩ := tsIteration_found w env probe es hskipped heof hrest
      obtain ⟨o', es'', st', pos, hres, hok', hsize', hreader, hnext⟩ :=
        tsIteration_wire w env probe es (hkept.fifos hok) hsize hjunk hskipped heof hrest
      rw [hiter] at hres
      cases hres
      have hat : syncAt st1 = st1.reader.pos + skipped.length := by
        rw [syncAt, hpos, Nat.add_sub_cancel]
      rw [List.map_cons, List.length_cons, boundaries_succ, hat, List.zip_cons_cons,
        List.forall_mem_cons, List.cons.injEq, ← hnext]
      by_cases hunread : tsSyncByte ∈ w.unread st1
      · refine iff_of_false (fun h => ?_) fun h => h.1 hunread
        obtain ⟨r, hfound, hle⟩ := tsSyncFrom_mem hunread pos (packets.flatMap TsWire.bytes)
        have hsync2 : tsSync st2.reader = (true, r) := by rw [hreader]; exact hfound
        cases hrun with
        | done hend =>
          rw [hsync2] at hend
          cases hend
        | @step _ st3 _ sts _ _ _ _ _ hkept2 _ _ _ =>
          have hat3 : syncAt st3 = r.pos - 1 := by rw [syncAt, hkept2.reader, hsync2]
          cases packets with
          | nil => cases h.2
          | cons w' packets =>
            have hhead := h.2
            rw [List.map_cons, List.length_cons, boundaries_succ, List.cons.injEq] at hhead
            have hlen := List.length_pos_of_mem hunread
            omega
      · have hrec := hrun.boundaries_iff packets _ hok' (hsize'.trans hsize)
          (by rw [hsize']; exact hjunk) (by rw [hreader]) (by rw [hreader]) hunread
        rw [hreader] at hrec
        exact ⟨fun h => ⟨hunread, hrec.1 h.2⟩, fun h => ⟨rfl, hrec.2 h.2⟩⟩

/-- A stream of packets is read to its end, and every header at its sync byte exactly if no
packet leaves a sync byte unread. -/
theorem ts_packet_boundaries (env : TsEnv T) {junk : Nat} (packets : List (TsWire junk))
    {st : TsState T} (hsize : st.packetSize = tsPacketSize + junk)
    (hdetected : st.packetSize ∈ [188, 192, 204]) (hok : FifosOk st)
    (heof : st.reader.eof = false) (hrest : st.reader.rest = packets.flatMap TsWire.bytes) :
    (∃ sts, SyncRun st sts) ∧
      ∀ sts, SyncRun st sts →
        (sts.map syncAt = boundaries st.reader.pos st.packetSize packets.length ↔
          ∀ p ∈ sts.zip packets, tsSyncByte ∉ p.2.unread p.1) := by
  have hjunk : st.packetSize ≤ tsFecPacketSize := by
    simp only [List.mem_cons, List.not_mem_nil, or_false] at hdetected
    simp only [tsFecPacketSize]
    omega
  refine ⟨SyncRun.exists env _ (Nat.le_refl _) hok hjunk, fun sts hrun => ?_⟩
  have h := hrun.boundaries_iff packets [] hok hsize hjunk heof hrest (by simp)
  rwa [← hsize] at h

/-- What is left unread is behind the header. -/
theorem TsWire.mem_of_mem_unread {w : TsWire junk} {b : UInt8} (h : b ∈ w.unread st) :
    b ∈ w.body ++ w.trailer := by
  rw [TsWire.unread] at h
  split at h
  · exact List.mem_of_mem_drop h
  split at h
  · exact List.mem_append_right _ h
  · cases h

/-- No tables. -/
def noTables : TsEnv Unit where
  streamId := fun _ => -1
  audioSubstreamId := -1
  stale := fun _ => 0
  parsePat := fun _ _ _ => ()
  parsePmt := fun _ _ _ _ _ => ((), [])
  parseSlSections := fun _ _ _ _ => ()
  parseSlPacket := fun _ _ _ es => (0, (), es)
  hasPmt := fun _ _ => false
  mp4Dec := fun _ _ => none
  typeFromPmt := fun _ _ => .unknown
  progIdInPat := fun _ _ => -1

/-- The demuxer in front of a stream of packets of a size, with nothing found yet. -/
def freshTs (packetSize : Nat) (file : List UInt8) : TsState Unit where
  reader := .start file
  packetSize := packetSize
  keepBroken := false
  pids := fun _ => none
  streams := fun _ => ⟨-3, false⟩
  last := fun _ => 0
  headers := fun _ _ => none
  fifo := fun slot => ⟨none, 0, if slot = .audio then 1536 else 32767⟩
  tables := ()
  id := fun _ => -1
  subSid := none
  queue := fun _ => []

theorem freshTs_ok (packetSize : Nat) (file : List UInt8) : FifosOk (freshTs packetSize file) :=
  fun _ => Fifo.Ok.empty _ _

/-- A packet of 204 bytes that starts a stream, all zeros behind its header. -/
def zeroPacket : TsWire 16 where
  b1 := 0x41
  b2 := 0
  b3 := 0x10
  body := List.replicate 184 0
  trailer := List.replicate 16 0
  body_length := List.length_replicate
  trailer_length := List.length_replicate

/-- Two of them are read where they are. -/
theorem ts_packet_boundaries_zero :
    ∃ sts, SyncRun (freshTs 204 ([zeroPacket, zeroPacket].flatMap TsWire.bytes)) sts ∧
      sts.map syncAt = [0, 204] := by
  obtain ⟨⟨sts, hrun⟩, hiff⟩ := ts_packet_boundaries noTables [zeroPacket, zeroPacket]
    (rfl : (freshTs 204 ([zeroPacket, zeroPacket].flatMap TsWire.bytes)).packetSize = _)
    (by decide) (freshTs_ok _ _) rfl rfl
  refine ⟨sts, hrun, (hiff sts hrun).2 fun p hp hmem => ?_⟩
  have hzero : p.2 = zeroPacket := by simpa using (List.of_mem_zip hp).2
  have hbyte := TsWire.mem_of_mem_unread hmem
  rw [hzero] at hbyte
  have hne : tsSyncByte ≠ 0 := by decide
  rcases List.mem_append.1 hbyte with h | h
  · exact hne (List.eq_of_mem_replicate h)
  · exact hne (List.eq_of_mem_replicate h)

/-- A null packet that ends in a sync byte. -/
def nullPacket : TsWire 0 where
  b1 := 0x1f
  b2 := 0xff
  b3 := 0x10
  body := List.replicate 183 0 ++ [0x47]
  trailer := []
  body_length := by rw [List.length_append, List.length_replicate, List.length_singleton]
  trailer_length := rfl

theorem nullPacket_unread (st : TsState T) : nullPacket.unread st = [tsSyncByte] := by
  have hhead : nullPacket.head = ⟨false, false, 8191, 1⟩ := by decide
  have hbody : (nullPacket.body ++ nullPacket.trailer).drop (183 + 0) = [tsSyncByte] := by
    have hzeros : (List.replicate 183 (0 : UInt8)).length = 183 := List.length_replicate
    rw [nullPacket, List.append_nil, Nat.add_zero, List.drop_left' hzeros]
    rfl
  rw [TsWire.unread, hhead, if_pos (.inl (by simp [TsHead.rejected]))]
  exact hbody

/-- Behind a null packet its last byte is taken for a sync byte. -/
theorem ts_packet_boundaries_null :
    ∃ sts, SyncRun (freshTs 188 ([nullPacket, nullPacket].flatMap TsWire.bytes)) sts ∧
      sts.map syncAt ≠ [0, 188] := by
  have hsize (file : List UInt8) : (freshTs 188 file).packetSize ≤ tsFecPacketSize :=
    (by decide : 188 ≤ 204)
  obtain ⟨sts, hrun⟩ := SyncRun.exists noTables _ (Nat.le_refl _)
    (freshTs_ok 188 ([nullPacket, nullPacket].flatMap TsWire.bytes)) (hsize _)
  refine ⟨sts, hrun, fun heq => ?_⟩
  have hall := (hrun.boundaries_iff [nullPacket, nullPacket] [] (freshTs_ok _ _) rfl (hsize _)
    rfl rfl (by simp)).1 heq
  match sts, heq, hall with
  | [], heq, _ => cases heq
  | st :: _, _, hall =>
    refine hall (st, nullPacket) List.mem_cons_self ?_
    rw [nullPacket_unread]
    exact List.mem_cons_self

end MPlayer
