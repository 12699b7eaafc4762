import MPlayer.Ts.PesSpec
import MPlayer.Ts.Channel

/-!
# PES packets through transport packets

The payload of a PES packet that is cut for transport packets is put together again in the
channel of its stream, whatever the other streams get in between.
-/

namespace MPlayer

open Lib

variable {T : Type}

/-! ## A buffer that is filled -/

/-- The buffer has been filled with some bytes, and others lie behind them. -/
structure Fifo.Fills (fifo : Fifo) (bytes behind : List UInt8) (pts : Option Time) : Prop where
  offset : fifo.offset = bytes.length
  pack : ∃ pack, fifo.pack = some pack ∧ pack.buffer = bytes ++ behind ∧ pack.pts = pts

theorem Fifo.ready_fills {fifo : Fifo} (h : fifo.pack = none) : fifo.ready.Fills [] [] none := by
  rw [Fifo.ready, h]
  exact ⟨rfl, _, rfl, rfl, rfl⟩

section Fills

variable {fifo : Fifo} {bytes behind : List UInt8} {pts : Option Time}

theorem Fifo.Fills.ready (h : fifo.Fills bytes behind pts) : fifo.ready.Fills bytes behind pts := by
  obtain ⟨pack, hpack, -⟩ := h.pack
  rw [Fifo.ready, hpack]
  exact h

theorem Fifo.Fills.map (h : fifo.Fills bytes behind pts) {f : TsPack → TsPack}
    {behind' : List UInt8} {pts' : Option Time} (bufferSize : Nat)
    (hbuffer : ∀ pack, pack.buffer = bytes ++ behind → (f pack).buffer = bytes ++ behind')
    (hpts : ∀ pack, pack.pts = pts → (f pack).pts = pts') :
    Fifo.Fills ⟨fifo.pack.map f, fifo.offset, bufferSize⟩ bytes behind' pts' := by
  obtain ⟨pack, hpack, hb, hp⟩ := h.pack
  exact ⟨h.offset, f pack, by rw [hpack, Option.map_some], hbuffer pack hb, hpts pack hp⟩

/-- More room changes no bytes. -/
theorem Fifo.Fills.makeRoom (h : fifo.Fills bytes behind pts) (bufSize : Nat) :
    (fifo.makeRoom bufSize).Fills bytes behind pts := by
  rw [Fifo.makeRoom]
  split
  · exact h.map _ (fun _ hbuffer => hbuffer) fun _ hpts => hpts
  · exact h

/-- Data is put behind the bytes. -/
theorem Fifo.Fills.move (h : fifo.Fills bytes behind pts) (data : List UInt8) :
    (fifo.move data).Fills bytes data pts := by
  refine h.map fifo.bufferSize (fun pack hbuffer => ?_) fun _ hpts => hpts
  show pack.buffer.take fifo.offset ++ data = bytes ++ data
  rw [hbuffer, h.offset, List.take_left]

/-- Data behind the bytes becomes part of them. -/
theorem Fifo.Fills.grow (h : fifo.Fills bytes behind pts) {n : Nat} (hn : n ≤ behind.length) :
    (fifo.grow n).Fills (bytes ++ behind.take n) (behind.drop n) pts := by
  obtain ⟨pack, hpack, hbuffer, hpts⟩ := h.pack
  refine ⟨?_, pack, hpack, ?_, hpts⟩
  · rw [Fifo.grow, List.length_append, List.length_take, Nat.min_eq_left hn, h.offset]
  · rw [hbuffer, List.append_assoc, List.take_append_drop]

theorem Fifo.Fills.setPts (h : fifo.Fills bytes behind pts) (t : Time) :
    (fifo.setPts t).Fills bytes behind (some t) :=
  h.map fifo.bufferSize (fun _ hbuffer => hbuffer) fun _ _ => rfl

theorem Fifo.feed_fills (h : fifo.pack = none) (data : List UInt8) :
    ((fifo.ready.makeRoom data.length).move data).Fills [] data none :=
  ((Fifo.ready_fills h).makeRoom _).move data

theorem Fifo.Fills.feed (h : fifo.Fills bytes behind pts) (data : List UInt8) :
    ((fifo.ready.makeRoom data.length).move data).Fills bytes data pts :=
  (h.ready.makeRoom _).move data

end Fills

/-! ## Passing a buffer on -/

theorem Channel.flush_pack (ch : Channel) : ch.flush.fifo.pack = none := by
  rw [Channel.flush]
  split
  · rfl
  · split
    · rfl
    · rfl

theorem Channel.flush_of_none {ch : Channel} (h : ch.fifo.pack = none) :
    ch.flush.queue = ch.queue := by
  rw [Channel.flush, h]
  rfl

/-- A buffer without bytes is dropped. -/
theorem Channel.flush_of_empty {ch : Channel} {behind : List UInt8} {pts : Option Time}
    (h : ch.fifo.Fills [] behind pts) : ch.flush.queue = ch.queue := by
  obtain ⟨pack, hpack, -⟩ := h.pack
  rw [Channel.flush, hpack]
  dsimp only
  rw [if_pos (by exact h.offset)]
  rfl

/-- A buffer with bytes is queued. -/
theorem Channel.flush_of_fills {ch : Channel} {bytes behind : List UInt8} {pts : Option Time}
    (h : ch.fifo.Fills bytes behind pts) (hne : bytes ≠ []) :
    ch.flush.queue = ch.queue ++ [⟨bytes, bytes.length, pts⟩] := by
  obtain ⟨pack, hpack, hbuffer, hpts⟩ := h.pack
  have hoffset : ch.fifo.offset ≠ 0 := by
    rw [h.offset]
    exact fun hzero => hne (List.length_eq_zero_iff.mp hzero)
  rw [Channel.flush, hpack]
  dsimp only
  rw [if_neg hoffset, hbuffer, hpts, h.offset, List.take_left]
  rfl

/-! ## A PES packet that is put together -/

/-- Packets that are not empty, the first of them at a time, for some bytes. -/
structure Packs (t : Time) (bytes : List UInt8) (packs : List TsPack) : Prop where
  bytes : packs.flatMap (fun pack => pack.buffer) = bytes
  nonempty : ∀ pack ∈ packs, pack.buffer ≠ []
  pts : ∀ pack, packs.head? = some pack → pack.pts = some t

theorem Packs.nil (t : Time) : Packs t [] [] where
  bytes := rfl
  nonempty := fun _ h => absurd h List.not_mem_nil
  pts := fun _ h => nomatch h

variable {t : Time} {queue : List TsPack} {done : List UInt8} {more : List (List UInt8)}
  {pes : CutPes} {tss : EsStream}

/-- A further packet goes behind the others. -/
theorem Packs.concat {bytes : List UInt8} {packs : List TsPack} (h : Packs t bytes packs)
    {p : TsPack} (hne : p.buffer ≠ []) (hpts : packs = [] → p.pts = some t) :
    Packs t (bytes ++ p.buffer) (packs ++ [p]) where
  bytes := by
    rw [List.flatMap_append, h.bytes, List.flatMap_singleton]
  nonempty := by
    intro pack hpack
    rcases List.mem_append.mp hpack with hpack | hpack
    · exact h.nonempty pack hpack
    · rw [List.mem_singleton.mp hpack]
      exact hne
  pts := by
    cases packs with
    | nil =>
      intro pack hpack
      cases hpack
      exact hpts rfl
    | cons first packs => exact h.pts

/-- The channel has got `done` of a PES packet with the time `t`, and the rest is to come. -/
structure Channel.Filling (ch : Channel) (queue : List TsPack) (t : Time) (done : List UInt8)
    (more : List (List UInt8)) : Prop where
  synced : ch.tss.isSynced = true
  lastPts : ch.tss.lastPts = t
  nonempty : ∀ data ∈ more, data ≠ []
  remains : ch.tss.payloadSize = more.flatten.length ∨
    ch.tss.payloadSize = 0 ∧ ch.tss.carriesVideo = true
  packs : ∃ packs packed, ch.queue = queue ++ packs ∧ Packs t packed packs ∧
    (ch.fifo.pack = none ∧ packed = done ∧ (packs = [] → more = []) ∨
      ∃ bytes behind pts, ch.fifo.Fills bytes behind pts ∧ packed ++ bytes = done ∧
        (packs = [] → pts = some t))

/-- What is passed on when nothing more comes. -/
theorem Channel.Filling.flush {ch : Channel} (h : ch.Filling queue t done more) :
    ∃ packs, ch.flush.queue = queue ++ packs ∧ Packs t done packs := by
  obtain ⟨packs, packed, hqueue, hpacks, ⟨hpack, hdone, -⟩ | ⟨bytes, behind, pts, hfills, hdone,
    hpts⟩⟩ := h.packs
  · exact ⟨packs, by rw [flush_of_none hpack, hqueue], hdone ▸ hpacks⟩
  · cases bytes with
    | nil =>
      rw [List.append_nil] at hdone
      exact ⟨packs, by rw [flush_of_empty hfills, hqueue], hdone ▸ hpacks⟩
    | cons b bytes =>
      have hne : b :: bytes ≠ [] := List.cons_ne_nil b bytes
      have hconcat := hpacks.concat (p := ⟨b :: bytes, (b :: bytes).length, pts⟩) hne hpts
      refine ⟨_, ?_, hdone ▸ hconcat⟩
      rw [flush_of_fills hfills hne, hqueue, List.append_assoc]

theorem Channel.flush_tss (ch : Channel) : ch.flush.tss = ch.tss := Channel.flushIf_tss true ch

/-- Passing on what is there does no harm, unless nothing is and something is to come. -/
theorem Channel.Filling.flushed {ch : Channel} (h : ch.Filling queue t done more)
    (hsome : done = [] → more = []) : ch.flush.Filling queue t done more := by
  obtain ⟨packs, hqueue, hpacks⟩ := h.flush
  have hnil : packs = [] → more = [] := by
    rintro rfl
    exact hsome hpacks.bytes.symm
  refine ⟨?_, ?_, h.nonempty, ?_, packs, done, hqueue, hpacks, Or.inl ⟨flush_pack ch, rfl, hnil⟩⟩
  · rw [flush_tss, h.synced]
  · rw [flush_tss, h.lastPts]
  · rw [flush_tss]
    exact h.remains

theorem Channel.Filling.flushIf {ch : Channel} (h : ch.Filling queue t done more) {due : Bool}
    (hsome : due = true → done = [] → more = []) : (ch.flushIf due).Filling queue t done more := by
  cases due
  · exact h
  · exact h.flushed (hsome rfl)

/-! ## The start of a PES packet -/

/-- The time of a PES packet, which is that of the packet before it if it has none. -/
def CutPes.timeAfter (pes : CutPes) (lastPts : Time) : Time :=
  if pes.time.num = 0 then lastPts else pes.time

/-- Of the first payload, what is behind the headers is kept. -/
theorem CutPes.Parsed.bytes {typeFromPmt : EsType} {es : EsStream} (h : pes.Parsed typeFromPmt es) :
    (pes.start.drop es.start).take (startSize es.size pes.start.length) =
        pes.first.drop (pes.skip typeFromPmt) ∧
      startSize es.size pes.start.length = (pes.first.drop (pes.skip typeFromPmt)).length := by
  have hlen := pes.length_start
  have hdrop : pes.start.drop es.start = pes.first.drop (pes.skip typeFromPmt) := by
    rw [h.start, ← pes.length_head, CutPes.start, List.drop_append,
      List.drop_eq_nil_of_le (by omega), List.nil_append, Nat.add_sub_cancel_left]
  have hsize : startSize es.size pes.start.length =
      (pes.first.drop (pes.skip typeFromPmt)).length := by
    rw [startSize, h.size, List.length_drop]
    split
    · omega
    · omega
  exact ⟨by rw [hdrop, hsize, List.take_length], hsize⟩

theorem Channel.synced_flush (ch : Channel) : ch.synced.flush = ch.flush.synced := by
  obtain ⟨tss, ⟨pack, offset, bufferSize⟩, queue⟩ := ch
  cases pack with
  | none => rfl
  | some pack =>
    cases offset with
    | zero => rfl
    | succ offset => rfl

theorem EsStream.isSub_video (h : tss.type.isSub = true) : tss.carriesVideo = false := by
  rw [EsStream.carriesVideo]
  cases htype : tss.type <;> simp_all [EsType.isSub, EsType.isVideo]

theorem CutPes.Fits.remains (h : pes.Fits tss.carriesVideo) :
    (if pes.size = 0 then 0 else pes.more.flatten.length) = pes.more.flatten.length ∨
      (if pes.size = 0 then 0 else pes.more.flatten.length) = 0 ∧ tss.carriesVideo = true := by
  rcases h.size with hsize | ⟨hzero, hvideo, -⟩
  · rw [if_neg (by omega)]
    exact Or.inl rfl
  · rw [if_pos hzero]
    exact Or.inr ⟨rfl, hvideo⟩

theorem flatten_eq_nil (hne : ∀ data ∈ more, data ≠ []) (h : more.flatten.length = 0) :
    more = [] := by
  cases more with
  | nil => rfl
  | cons data more =>
    rw [List.flatten_cons, List.length_append] at h
    exact absurd (List.length_eq_zero_iff.mp (by omega)) (hne data List.mem_cons_self)

/-- A PES packet that starts. -/
theorem Channel.startPes_filling (ch : Channel) {typeFromPmt : EsType} {es : EsStream}
    (hparsed : pes.Parsed typeFromPmt es) (hfits : pes.Fits ch.tss.carriesVideo)
    (hne : ∀ data ∈ pes.more, data ≠ []) (rap : Bool) :
    (ch.startPes pes.start rap es).Filling ch.flush.queue (pes.timeAfter ch.tss.lastPts)
      (pes.first.drop (pes.skip typeFromPmt)) pes.more := by
  obtain ⟨hbytes, hsize⟩ := hparsed.bytes
  have hfed : (ch.flush.synced.feed pes.start).fifo.Fills [] pes.start none :=
    Fifo.feed_fills ch.flush_pack pes.start
  have hfills := (hfed.move (pes.first.drop (pes.skip typeFromPmt))).grow (Nat.le_refl _)
  have htss : (ch.flush.synced.feed pes.start).tss = ch.synced.tss := congrArg
    (fun tss : EsStream => { tss with isSynced := true }) ch.flush_tss
  rw [Channel.startPes, synced_flush, Channel.takeStart, hbytes, hsize, hparsed.pts,
    hparsed.payloadSize, htss]
  refine Filling.flushIf ⟨rfl, rfl, hne, hfits.remains, [], [], ?_, Packs.nil _, Or.inr
    ⟨_, _, _, hfills.setPts _, ?_, fun _ => rfl⟩⟩ fun hdue _ => ?_
  · exact (List.append_nil _).symm
  · rw [List.take_length]
    rfl
  · rw [Bool.and_eq_true, decide_eq_true_eq] at hdue
    refine flatten_eq_nil hne ?_
    rcases hfits.remains with hremains | ⟨-, hvideo⟩
    · rw [← hremains, hdue.2]
    · exact Bool.noConfusion (hvideo.symm.trans (EsStream.isSub_video hdue.1))

/-! ## The continuation of a PES packet -/

/-- Data is fed behind what is there. -/
theorem Channel.Filling.feed {ch : Channel} {data : List UInt8}
    (h : ch.Filling queue t done (data :: more)) :
    ∃ packs packed bytes pts, ch.queue = queue ++ packs ∧ Packs t packed packs ∧
      (ch.synced.feed data).fifo.Fills bytes data pts ∧ packed ++ bytes = done ∧
      (packs = [] → pts = some t) := by
  obtain ⟨packs, packed, hqueue, hpacks, ⟨hpack, hdone, hsome⟩ | ⟨bytes, behind, pts, hfills, hdone,
    hpts⟩⟩ := h.packs
  · refine ⟨packs, packed, [], none, hqueue, hpacks, Fifo.feed_fills hpack data, ?_, fun hnil => ?_⟩
    · rw [List.append_nil, hdone]
    · exact absurd (hsome hnil) (List.cons_ne_nil data more)
  · exact ⟨packs, packed, bytes, pts, hqueue, hpacks, hfills.feed data, hdone, hpts⟩

/-- A PES packet that goes on. -/
theorem Channel.continuePes_filling {ch : Channel} {data : List UInt8}
    (h : ch.Filling queue t done (data :: more)) :
    (ch.continuePes data).Filling queue t (done ++ data) more := by
  obtain ⟨packs, packed, bytes, pts, hqueue, hpacks, hfills, hdone, hpts⟩ := h.feed
  have hdata : data ≠ [] := h.nonempty data List.mem_cons_self
  have hpos : 0 < data.length := List.length_pos_iff.mpr hdata
  have hne : ∀ data ∈ more, data ≠ [] := fun d hd => h.nonempty d (List.mem_cons_of_mem _ hd)
  have hremains := h.remains
  rw [List.flatten_cons, List.length_append] at hremains
  have hsize : continueSize ch.synced.tss.payloadSize data.length = data.length := by
    show continueSize ch.tss.payloadSize data.length = data.length
    rw [continueSize]
    split
    · omega
    · rfl
  have hgrow := hfills.grow (Nat.le_refl _)
  rw [List.take_length] at hgrow
  have htaken : ¬(ch.tss.payloadSize = 0 ∧ (!ch.tss.carriesVideo) = true) := by
    rintro ⟨hzero, hvideo⟩
    rcases hremains with hremains | ⟨-, hremains⟩
    · omega
    · rw [hremains] at hvideo
      exact Bool.noConfusion hvideo
  have hdone' : packed ++ (bytes ++ data) = done ++ data := by
    rw [← List.append_assoc, hdone]
  have hremains' : ch.tss.payloadSize - data.length = more.flatten.length ∨
      ch.tss.payloadSize - data.length = 0 ∧ ch.tss.carriesVideo = true := by
    rcases hremains with hremains | ⟨hremains, hvideo⟩
    · exact Or.inl (by omega)
    · exact Or.inr ⟨by omega, hvideo⟩
  have htss : (ch.synced.feed data).tss = ch.synced.tss := rfl
  rw [Channel.continuePes, Channel.takeMore, htss]
  dsimp only
  rw [if_neg (by exact htaken), hsize]
  split
  · refine Filling.flushed ⟨rfl, h.lastPts, hne, hremains', packs, packed, hqueue, hpacks, Or.inr
      ⟨_, _, _, hgrow.setPts _, hdone', fun _ => congrArg some h.lastPts⟩⟩ fun hnil => ?_
    exact absurd (List.append_eq_nil_iff.mp hnil).2 hdata
  · exact ⟨rfl, h.lastPts, hne, hremains', packs, packed, hqueue, hpacks, Or.inr
      ⟨_, _, _, hgrow, hdone', hpts⟩⟩

/-! ## What a channel keeps -/

/-- The type of the stream and the room of the buffer are left alone. -/
structure Channel.Keeps (ch ch' : Channel) : Prop where
  type : ch'.tss.type = ch.tss.type
  subtype : ch'.tss.subtype = ch.tss.subtype
  fifo : ch.fifo.Ok → ch'.fifo.Ok

theorem Channel.Keeps.trans {ch ch' ch'' : Channel} (h : ch.Keeps ch') (h' : ch'.Keeps ch'') :
    ch.Keeps ch'' :=
  ⟨h'.type.trans h.type, h'.subtype.trans h.subtype, h'.fifo ∘ h.fifo⟩

theorem Channel.flush_keeps (ch : Channel) : ch.Keeps ch.flush where
  type := by rw [flush_tss]
  subtype := by rw [flush_tss]
  fifo := by
    intro _ pack hpack
    rw [flush_pack] at hpack
    cases hpack

theorem Channel.Keeps.flush {ch ch' : Channel} (h : ch.Keeps ch') : ch.Keeps ch'.flush :=
  h.trans ch'.flush_keeps

theorem Channel.Keeps.flushIf {ch ch' : Channel} (h : ch.Keeps ch') (due : Bool) :
    ch.Keeps (ch'.flushIf due) := by
  cases due
  · exact h
  · exact h.flush

theorem Channel.feed_keeps (data : List UInt8) (ch : Channel) : ch.Keeps (ch.synced.feed data) :=
  ⟨rfl, rfl, fun hok => (hok.makeRoom data.length).1.move data⟩

/-- The begin of a PES packet changes no type. -/
theorem Channel.startPes_keeps (data : List UInt8) (rap : Bool) (es : EsStream) (ch : Channel) :
    ch.Keeps (ch.startPes data rap es) := by
  rw [Channel.startPes, synced_flush]
  refine (ch.flush_keeps.trans (feed_keeps data ch.flush)).trans ?_
  rw [Channel.takeStart]
  dsimp only
  refine Keeps.flushIf ?_ _
  exact ⟨rfl, rfl, fun hok => ((hok.move _).grow _).setPts _⟩

theorem Channel.continuePes_keeps (data : List UInt8) (ch : Channel) :
    ch.Keeps (ch.continuePes data) := by
  rw [Channel.continuePes]
  refine (feed_keeps data ch).trans ?_
  rw [Channel.takeMore]
  dsimp only
  split
  · exact ⟨rfl, rfl, id⟩
  · split
    · exact Keeps.flush ⟨rfl, rfl, fun hok => (hok.grow _).setPts _⟩
    · exact ⟨rfl, rfl, fun hok => hok.grow _⟩

theorem tsMp4Type_again {env : TsEnv T} {pid : Nat} {tables : T} {tss' : EsStream}
    (htype : tss'.type = (tsMp4Type env pid tables tss).type)
    (hsubtype : tss'.subtype = (tsMp4Type env pid tables tss).subtype) :
    tsMp4Type env pid tables tss' = tss' := by
  rw [tsMp4Type] at htype hsubtype ⊢
  cases hdec : env.mp4Dec pid tables with
  | none => rfl
  | some object =>
    rw [hdec] at htype hsubtype
    dsimp only at htype hsubtype ⊢
    split
    next hobject =>
      rw [if_pos hobject] at htype hsubtype
      cases tss'
      cases htype
      cases hsubtype
      rfl
    · rfl

theorem tsSlot_congr {pid : Nat} {tss' : EsStream} {st st' : TsState T}
    (htype : tss'.type = tss.type) (hsubtype : tss'.subtype = tss.subtype) (hid : st'.id = st.id)
    (hstreams : st'.streams = st.streams) (hsub : st'.subSid = st.subSid) :
    tsSlot pid tss' st' = tsSlot pid tss st := by
  have hvideo : tss'.carriesVideo = tss.carriesVideo := by
    rw [EsStream.carriesVideo, EsStream.carriesVideo, htype, hsubtype]
  have haudio : tss'.carriesAudio = tss.carriesAudio := by
    rw [EsStream.carriesAudio, EsStream.carriesAudio, htype, hsubtype]
  rw [tsSlot, tsSlot, hvideo, haudio, htype, hid, hstreams, hsub]

section Put

variable {env : TsEnv T} {st : TsState T} {slot : Slot} {pid : Nat} {ch ch' : Channel}

theorem Selected.put {slot' : Slot} {pid' : Nat} {tss tss' : EsStream}
    (h : Selected env st slot' pid' tss) (htype : tss'.type = tss.type)
    (hsubtype : tss'.subtype = tss.subtype) (r : Reader) :
    Selected env ((st.moveTo r).put pid slot ch) slot' pid' tss' where
  lo := h.lo
  hi := h.hi
  slot := (tsSlot_congr htype hsubtype rfl rfl rfl).trans h.slot
  header := h.header
  noPmt := h.noPmt

theorem Holds.put (h : Holds env st slot pid ch) (hkeeps : ch.Keeps ch') (r : Reader) :
    Holds env ((st.moveTo r).put pid slot ch') slot pid ch' where
  tss := by
    obtain ⟨tss, -, htss⟩ := h.tss
    have htype : ch'.tss.type = (tsMp4Type env pid st.tables tss).type :=
      hkeeps.type.trans (congrArg EsStream.type htss.symm)
    have hsubtype : ch'.tss.subtype = (tsMp4Type env pid st.tables tss).subtype :=
      hkeeps.subtype.trans (congrArg EsStream.subtype htss.symm)
    exact ⟨ch'.tss, if_pos rfl, tsMp4Type_again htype hsubtype⟩
  fifo := put_fifo
  queue := if_pos rfl
  selected := h.selected.put hkeeps.type hkeeps.subtype r

/-- The other streams are left alone. -/
theorem Holds.put_other {slot' : Slot} {pid' : Nat} {other : Channel}
    (h : Holds env st slot' pid' other) (hslot : slot' ≠ slot) (hpid : pid' ≠ pid) (r : Reader) :
    Holds env ((st.moveTo r).put pid slot ch') slot' pid' other where
  tss := by
    obtain ⟨tss, hpids, htss⟩ := h.tss
    exact ⟨tss, (if_neg hpid).trans hpids, htss⟩
  fifo := (if_neg hslot).trans h.fifo
  queue := (if_neg hslot).trans h.queue
  selected := h.selected.put rfl rfl r

theorem FifosOk.put (hok : FifosOk st) (hfifo : st.fifo slot = ch.fifo) (hkeeps : ch.Keeps ch')
    (r : Reader) : FifosOk ((st.moveTo r).put pid slot ch') := by
  intro slot'
  show Fifo.Ok (if slot' = slot then ch'.fifo else st.fifo slot')
  split
  · exact hkeeps.fifo (hfifo ▸ hok slot)
  · exact hok slot'

end Put

end MPlayer
