import MPlayer.Ts.Reassembly
import Mathlib.Data.List.Forall2

/-!
# What the streams are given

The transport packets of several streams come in any order.  Every stream is given the payloads
of its own PES packets, each from a new packet on.
-/

namespace MPlayer

open Lib

variable {T : Type}

/-! ## PES packets in transport packets -/

/-- What the transport packets of a PES packet carry. -/
def CutPes.chunks (pid : Nat) (pes : CutPes) : List Chunk :=
  ⟨pid, true, pes.start⟩ :: pes.more.map fun data => ⟨pid, false, data⟩

/-- A PES packet of a selected stream, in transport packets that all have some payload. -/
structure CutPes.Sound (env : TsEnv T) (video : Bool) (typeFromPmt : EsType) (pes : CutPes) :
    Prop where
  fits : pes.Fits video
  wanted : pes.Wanted env typeFromPmt
  nonempty : ∀ data ∈ pes.more, data ≠ []

/-- The packets that a stream is given for a PES packet. -/
structure CutPes.Packed (typeFromPmt : EsType) (pes : CutPes) (packs : List TsPack) : Prop where
  bytes : packs.flatMap (fun pack => pack.buffer) = pes.taken typeFromPmt
  nonempty : ∀ pack ∈ packs, pack.buffer ≠ []
  pts : pes.time.num ≠ 0 → ∀ pack, packs.head? = some pack → pack.pts = some pes.time

variable {pes : CutPes} {slot slot' : Slot} {st : TsState T}

theorem Packs.packed {typeFromPmt : EsType} {lastPts : Time} {packs : List TsPack}
    (h : Packs (pes.timeAfter lastPts) (pes.taken typeFromPmt) packs) :
    pes.Packed typeFromPmt packs where
  bytes := h.bytes
  nonempty := h.nonempty
  pts := by
    intro htime pack hpack
    rw [h.pts pack hpack, CutPes.timeAfter, if_neg htime]

/-! ## What a channel is still owed -/

section Owes

variable (env : TsEnv T) (typeFromPmt : EsType) (pid : Nat) (goal : List TsPack → Prop)

/-- Whatever packets are made of the PES packets that are to come, the goal is met. -/
def GoalAfter (queue : List TsPack) (pess : List CutPes) : Prop :=
  ∀ pss, List.Forall₂ (CutPes.Packed typeFromPmt) pess pss → goal (queue ++ pss.flatten)

/-- The packets that are to come for a channel, which will then have met its goal. -/
inductive Owes (ch : Channel) (cs : List Chunk) : Prop
  | between {pess : List CutPes} (hcs : cs = pess.flatMap (CutPes.chunks pid))
      (hsound : ∀ pes ∈ pess, pes.Sound env ch.tss.carriesVideo typeFromPmt)
      (hgoal : GoalAfter typeFromPmt goal ch.flush.queue pess)
  | within {pess : List CutPes} {queue : List TsPack} {t : Time} {done : List UInt8}
      {more : List (List UInt8)}
      (hcs : cs = more.map (fun data => ⟨pid, false, data⟩) ++ pess.flatMap (CutPes.chunks pid))
      (hsound : ∀ pes ∈ pess, pes.Sound env ch.tss.carriesVideo typeFromPmt)
      (hfilling : ch.Filling queue t done more)
      (hgoal : ∀ packs, Packs t (done ++ more.flatten) packs →
        GoalAfter typeFromPmt goal (queue ++ packs) pess)

variable {env typeFromPmt pid goal} {ch : Channel} {c : Chunk} {cs : List Chunk}

theorem Channel.Keeps.carriesVideo {ch ch' : Channel} (h : ch.Keeps ch') :
    ch'.tss.carriesVideo = ch.tss.carriesVideo := by
  rw [EsStream.carriesVideo, EsStream.carriesVideo, h.type, h.subtype]

/-- A PES packet that is complete. -/
theorem Channel.Filling.complete {queue : List TsPack} {t : Time} {done : List UInt8}
    {pess : List CutPes} (h : ch.Filling queue t done [])
    (hgoal : ∀ packs, Packs t (done ++ [].flatten) packs →
      GoalAfter typeFromPmt goal (queue ++ packs) pess) :
    GoalAfter typeFromPmt goal ch.flush.queue pess := by
  obtain ⟨packs, hqueue, hpacks⟩ := h.flush
  rw [List.flatten_nil, List.append_nil] at hgoal
  rw [hqueue]
  exact hgoal packs hpacks

/-- Nothing is owed any more. -/
theorem Owes.done (h : Owes env typeFromPmt pid goal ch []) : goal ch.flush.queue := by
  have hnil {pess : List CutPes} (hcs : [] = pess.flatMap (CutPes.chunks pid))
      (hgoal : GoalAfter typeFromPmt goal ch.flush.queue pess) : goal ch.flush.queue := by
    cases pess with
    | nil => simpa using hgoal [] List.Forall₂.nil
    | cons pes pess => simp [CutPes.chunks] at hcs
  cases h with
  | between hcs hsound hgoal => exact hnil hcs hgoal
  | @within pess queue t done more hcs hsound hfilling hgoal =>
    cases more with
    | nil => exact hnil hcs (hfilling.complete hgoal)
    | cons data more => cases hcs

/-- The start of a PES packet that is owed. -/
theorem Owes.start {pes : CutPes} {pess : List CutPes}
    (hsound : ∀ p ∈ pes :: pess, p.Sound env ch.tss.carriesVideo typeFromPmt)
    (hgoal : GoalAfter typeFromPmt goal ch.flush.queue (pes :: pess)) {es : EsStream}
    (hparsed : pes.Parsed typeFromPmt es) (rap : Bool) :
    Owes env typeFromPmt pid goal (ch.startPes pes.start rap es)
      (pes.more.map (fun data => ⟨pid, false, data⟩) ++ pess.flatMap (CutPes.chunks pid)) := by
  obtain ⟨hfits, -, hne⟩ := hsound pes List.mem_cons_self
  refine Owes.within rfl ?_ (ch.startPes_filling hparsed hfits hne rap) ?_
  · rw [(Channel.startPes_keeps pes.start rap es ch).carriesVideo]
    exact fun p hp => hsound p (List.mem_cons_of_mem _ hp)
  · intro packs hpacks pss hpss
    rw [List.append_assoc]
    exact hgoal (packs :: pss) (List.Forall₂.cons hpacks.packed hpss)

/-- The packet that comes next starts a PES packet or continues one. -/
theorem Owes.next (h : Owes env typeFromPmt pid goal ch (c :: cs)) :
    (∃ pes : CutPes, c = ⟨pid, true, pes.start⟩ ∧
      pes.Sound env ch.tss.carriesVideo typeFromPmt ∧ ∀ rap es, pes.Parsed typeFromPmt es →
        Owes env typeFromPmt pid goal (ch.startPes c.data rap es) cs) ∨
    c.isStart = false ∧ ch.tss.isSynced = true ∧
      Owes env typeFromPmt pid goal (ch.continuePes c.data) cs := by
  have hnext {pess : List CutPes} (hcs : c :: cs = pess.flatMap (CutPes.chunks pid))
      (hsound : ∀ pes ∈ pess, pes.Sound env ch.tss.carriesVideo typeFromPmt)
      (hgoal : GoalAfter typeFromPmt goal ch.flush.queue pess) :
      ∃ pes : CutPes, c = ⟨pid, true, pes.start⟩ ∧
        pes.Sound env ch.tss.carriesVideo typeFromPmt ∧ ∀ rap es, pes.Parsed typeFromPmt es →
          Owes env typeFromPmt pid goal (ch.startPes c.data rap es) cs := by
    cases pess with
    | nil => cases hcs
    | cons pes pess =>
      cases hcs
      exact ⟨pes, rfl, hsound pes List.mem_cons_self, fun rap es hparsed =>
        Owes.start hsound hgoal hparsed rap⟩
  cases h with
  | between hcs hsound hgoal => exact Or.inl (hnext hcs hsound hgoal)
  | @within pess queue t done more hcs hsound hfilling hgoal =>
    cases more with
    | nil => exact Or.inl (hnext hcs hsound (hfilling.complete hgoal))
    | cons data more =>
      cases hcs
      refine Or.inr ⟨rfl, hfilling.synced, Owes.within rfl ?_
        (Channel.continuePes_filling hfilling) ?_⟩
      · rw [(Channel.continuePes_keeps data ch).carriesVideo]
        exact hsound
      · rw [List.append_assoc]
        exact hgoal

end Owes

/-! ## Runs -/

/-- What a stream has been given after `ts_dump_streams`. -/
def TsState.dumped (st : TsState T) (slot : Slot) : List TsPack := (tsDumpStreams st).queue slot

/-- Iterations that each find the packet which carries what comes next. -/
inductive ChunkRun (env : TsEnv T) : TsState T → List Chunk → Except Fault (TsState T) → Prop
  | done {st : TsState T} : ChunkRun env st [] (.ok st)
  | fault {st : TsState T} {junk : Nat} {w : TsWire junk} {c : Chunk} {cs : List Chunk}
      {es : EsStream} {fault : Fault} (hfound : Found st w) (hcarries : w.Carries c)
      (hiter : tsIteration env false es st = .error fault) :
      ChunkRun env st (c :: cs) (.error fault)
  | step {st st' : TsState T} {junk : Nat} {w : TsWire junk} {c : Chunk} {cs : List Chunk}
      {es es' : EsStream} {o : Option Int} {res : Except Fault (TsState T)} (hfound : Found st w)
      (hcarries : w.Carries c) (hiter : tsIteration env false es st = .ok (o, es', st'))
      (hrun : ChunkRun env st' cs res) : ChunkRun env st (c :: cs) res

theorem Channel.flush_queue_congr {ch ch' : Channel} (hfifo : ch'.fifo = ch.fifo)
    (hqueue : ch'.queue = ch.queue) : ch'.flush.queue = ch.flush.queue := by
  obtain ⟨tss, fifo, queue⟩ := ch
  obtain ⟨tss', fifo', queue'⟩ := ch'
  cases hfifo
  cases hqueue
  obtain ⟨pack, offset, bufferSize⟩ := fifo
  cases pack with
  | none => rfl
  | some pack =>
    cases offset with
    | zero => rfl
    | succ offset => rfl

/-- The channel of a buffer. -/
def TsState.channel (st : TsState T) (slot : Slot) : Channel :=
  ⟨EsStream.zero, st.fifo slot, st.queue slot⟩

theorem dumpStream_same (slot : Slot) (st : TsState T) :
    (dumpStream slot st).queue slot = (st.channel slot).flush.queue := by
  rw [dumpStream, Channel.flush, TsState.channel]
  dsimp only
  cases hpack : (st.fifo slot).pack with
  | none => rfl
  | some pack =>
    dsimp only
    split
    · rfl
    · exact if_pos rfl

theorem dumpStream_other (h : slot' ≠ slot) (st : TsState T) :
    (dumpStream slot st).queue slot' = st.queue slot' ∧
      (dumpStream slot st).fifo slot' = st.fifo slot' := by
  rw [dumpStream]
  split
  · exact ⟨rfl, rfl⟩
  · split
    · exact ⟨rfl, rfl⟩
    · exact ⟨if_neg h, if_neg h⟩

theorem channel_dumpStream (h : slot' ≠ slot) (st : TsState T) :
    (dumpStream slot st).channel slot' = st.channel slot' := by
  rw [TsState.channel, (dumpStream_other h st).1, (dumpStream_other h st).2, TsState.channel]

/-- `ts_dump_streams` passes on what is in each buffer. -/
theorem dumped_eq (st : TsState T) (slot : Slot) :
    st.dumped slot = (st.channel slot).flush.queue := by
  rw [TsState.dumped, tsDumpStreams]
  cases slot with
  | audio =>
    rw [(dumpStream_other (by decide) _).1, (dumpStream_other (by decide) _).1, dumpStream_same]
  | video =>
    rw [(dumpStream_other (by decide) _).1, dumpStream_same, channel_dumpStream (by decide)]
  | sub =>
    rw [dumpStream_same, channel_dumpStream (by decide), channel_dumpStream (by decide)]

theorem Holds.dumped {env : TsEnv T} {pid : Nat} {ch : Channel} (h : Holds env st slot pid ch) :
    st.dumped slot = ch.flush.queue := by
  rw [dumped_eq]
  exact Channel.flush_queue_congr h.fifo h.queue

theorem dumped_put_other (h : slot' ≠ slot) (r : Reader) (pid : Nat) (ch : Channel) :
    ((st.moveTo r).put pid slot ch).dumped slot' = st.dumped slot' := by
  rw [dumped_eq, dumped_eq]
  exact Channel.flush_queue_congr (if_neg h) (if_neg h)

/-- An iteration for a stream that is owed its packet. -/
theorem Owes.iteration {junk : Nat} {w : TsWire junk} {c : Chunk} (hcarries : w.Carries c)
    {env : TsEnv T} {ch : Channel} {goal : List TsPack → Prop} {cs : List Chunk}
    (hok : FifosOk st) (hfound : Found st w) (hholds : Holds env st slot c.pid ch)
    (howes : Owes env (env.typeFromPmt c.pid st.tables) c.pid goal ch (c :: cs)) (es : EsStream) :
    ∃ o es' r ch', tsIteration env false es st =
        .ok (o, es', (st.moveTo r).put c.pid slot ch') ∧ ch.Keeps ch' ∧
      Owes env (env.typeFromPmt c.pid st.tables) c.pid goal ch' cs := by
  rcases howes.next with ⟨pes, hc, hsound, hnext⟩ | ⟨hstart, hsynced, hnext⟩
  · have hdata : c.data = pes.start := congrArg Chunk.data hc
    obtain ⟨es1, hparse, hparsed⟩ := pesParse2_cut env hsound.fits hsound.wanted c.pid st.tables
      { es with isSynced := false }
    obtain ⟨o, es', r, rap, hiter⟩ := tsIteration_start hcarries (congrArg Chunk.isStart hc) hok
      hfound hholds (hdata ▸ hparse)
    exact ⟨o, es', r, _, hiter, Channel.startPes_keeps .., hnext rap es1 hparsed⟩
  · obtain ⟨o, es', r, hiter⟩ := tsIteration_continue hcarries hstart env es hok hfound hholds
      hsynced
    exact ⟨o, es', r, _, hiter, Channel.continuePes_keeps .., hnext⟩

/-- The streams and what they are owed. -/
structure Serves (env : TsEnv T) (pid : Slot → Option Nat) (goal : Slot → List TsPack → Prop)
    (st : TsState T) (cs : List Chunk) : Prop where
  fifos : FifosOk st
  known : ∀ c ∈ cs, ∃ slot, pid slot = some c.pid
  owes : ∀ slot p, pid slot = some p → ∃ ch, Holds env st slot p ch ∧
    Owes env (env.typeFromPmt p st.tables) p (goal slot) ch (cs.filter fun c => c.pid = p)
  others : ∀ slot, pid slot = none → goal slot (st.dumped slot)

theorem Serves.step {env : TsEnv T} {pid : Slot → Option Nat} {goal : Slot → List TsPack → Prop}
    {st : TsState T} {junk : Nat} {w : TsWire junk} {c : Chunk} {cs : List Chunk}
    (hdistinct : ∀ slot slot' p, pid slot = some p → pid slot' = some p → slot' = slot)
    (h : Serves env pid goal st (c :: cs)) (hfound : Found st w) (hcarries : w.Carries c)
    (es : EsStream) :
    ∃ o es' st', tsIteration env false es st = .ok (o, es', st') ∧ Serves env pid goal st' cs := by
  obtain ⟨slot, hslot⟩ := h.known c List.mem_cons_self
  obtain ⟨ch, hholds, howes⟩ := h.owes slot c.pid hslot
  rw [List.filter_cons_of_pos (by simp)] at howes
  obtain ⟨o, es', r, ch', hiter, hkeeps, howes'⟩ :=
    Owes.iteration hcarries h.fifos hfound hholds howes es
  refine ⟨o, es', _, hiter, h.fifos.put hholds.fifo hkeeps r,
    fun c' hc' => h.known c' (List.mem_cons_of_mem _ hc'), fun slot' p hp => ?_,
    fun slot' hnone => ?_⟩
  · by_cases heq : p = c.pid
    · subst heq
      cases hdistinct slot slot' _ hslot hp
      exact ⟨ch', hholds.put hkeeps r, howes'⟩
    · obtain ⟨other, hother, howes''⟩ := h.owes slot' p hp
      rw [List.filter_cons_of_neg (by simpa using Ne.symm heq)] at howes''
      refine ⟨other, hother.put_other ?_ heq r, howes''⟩
      rintro rfl
      rw [hp] at hslot
      exact heq (Option.some.inj hslot)
  · rw [dumped_put_other]
    · exact h.others slot' hnone
    · rintro rfl
      rw [hslot] at hnone
      cases hnone

/-- Whatever comes when, every stream meets its goal. -/
theorem ChunkRun.serves {env : TsEnv T} {pid : Slot → Option Nat} {goal : Slot → List TsPack → Prop}
    (hdistinct : ∀ slot slot' p, pid slot = some p → pid slot' = some p → slot' = slot)
    {cs : List Chunk} {res : Except Fault (TsState T)} (hrun : ChunkRun env st cs res)
    (h : Serves env pid goal st cs) :
    ∃ st', res = .ok st' ∧ ∀ slot, goal slot (st'.dumped slot) := by
  induction hrun with
  | @done st =>
    refine ⟨st, rfl, fun slot => ?_⟩
    cases hpid : pid slot with
    | none => exact h.others slot hpid
    | some p =>
      obtain ⟨ch, hholds, howes⟩ := h.owes slot p hpid
      rw [hholds.dumped]
      exact howes.done
  | @fault _ _ _ _ _ es _ hfound hcarries hiter =>
    obtain ⟨o, es', st', hiter', -⟩ := h.step hdistinct hfound hcarries es
    rw [hiter'] at hiter
    cases hiter
  | @step _ _ _ _ _ _ es _ _ _ hfound hcarries hiter hrun ih =>
    obtain ⟨o, es', st', hiter', h'⟩ := h.step hdistinct hfound hcarries es
    rw [hiter'] at hiter
    cases hiter
    exact ih h'

/-! ## Interleaved streams -/

/-- The selected streams, each with a PID of its own, and their PES packets. -/
structure PesStreams (env : TsEnv T) (st : TsState T) (pid : Slot → Option Nat)
    (pes : Slot → List CutPes) : Prop where
  fifos : FifosOk st
  distinct : ∀ slot slot' p, pid slot = some p → pid slot' = some p → slot' = slot
  selected : ∀ slot p, pid slot = some p → ∃ tss, st.pids p = some tss ∧
    Selected env st slot p (tsMp4Type env p st.tables tss) ∧ ∀ pkt ∈ pes slot,
      pkt.Sound env (tsMp4Type env p st.tables tss).carriesVideo (env.typeFromPmt p st.tables)

/-- The PES packets of all streams in transport packets, in any order that keeps that of each
stream. -/
structure Interleaves (pid : Slot → Option Nat) (pes : Slot → List CutPes) (cs : List Chunk) :
    Prop where
  known : ∀ c ∈ cs, ∃ slot, pid slot = some c.pid
  order : ∀ slot p, pid slot = some p →
    cs.filter (fun c => c.pid = p) = (pes slot).flatMap (CutPes.chunks p)

/-- A stream is given its PES packets, each in packets of its own. -/
def Delivers (typeFromPmt : EsType) (before : List TsPack) (pess : List CutPes)
    (after : List TsPack) : Prop :=
  ∃ pss, List.Forall₂ (CutPes.Packed typeFromPmt) pess pss ∧ after = before ++ pss.flatten

/-- Every stream is given its PES packets. -/
theorem ChunkRun.delivers {env : TsEnv T} {pid : Slot → Option Nat} {pes : Slot → List CutPes}
    (hstreams : PesStreams env st pid pes) {cs : List Chunk} (hcs : Interleaves pid pes cs)
    {res : Except Fault (TsState T)} (hrun : ChunkRun env st cs res) :
    ∃ st', res = .ok st' ∧ ∀ slot, match pid slot with
      | none => st'.dumped slot = st.dumped slot
      | some p =>
        Delivers (env.typeFromPmt p st.tables) (st.dumped slot) (pes slot) (st'.dumped slot) := by
  let goal (slot : Slot) (queue : List TsPack) : Prop :=
    match pid slot with
    | none => queue = st.dumped slot
    | some p => Delivers (env.typeFromPmt p st.tables) (st.dumped slot) (pes slot) queue
  have hserves : Serves env pid goal st cs := by
    refine ⟨hstreams.fifos, hcs.known, fun slot p hp => ?_, fun slot hnone => ?_⟩
    · obtain ⟨tss, hpids, hselected, hsound⟩ := hstreams.selected slot p hp
      have hholds : Holds env st slot p
          ⟨tsMp4Type env p st.tables tss, st.fifo slot, st.queue slot⟩ :=
        ⟨⟨tss, hpids, rfl⟩, rfl, rfl, hselected⟩
      refine ⟨_, hholds, Owes.between (hcs.order slot p hp) hsound fun pss hpss => ?_⟩
      simp only [goal, hp]
      exact ⟨pss, hpss, by rw [hholds.dumped]⟩
    · simp only [goal, hnone]
  exact hrun.serves hstreams.distinct hserves

/-- PES packets survive the cutting and the interleaving. -/
theorem pes_packets_survive {env : TsEnv T} {st : TsState T} {pid : Slot → Option Nat}
    {pes : Slot → List CutPes} (hstreams : PesStreams env st pid pes) {cs : List Chunk}
    (hcs : Interleaves pid pes cs) {res : Except Fault (TsState T)}
    (hrun : ChunkRun env st cs res) :
    ∃ st', res = .ok st' ∧ (∀ slot, pid slot = none → st'.dumped slot = st.dumped slot) ∧
      (∀ slot p, pid slot = some p →
        Delivers (env.typeFromPmt p st.tables) (st.dumped slot) (pes slot) (st'.dumped slot)) ∧
      ∀ es, st'.reader.eof = true → ∃ es', tsIteration env false es st' =
        .ok (some 0, es', tsDumpStreams st') := by
  obtain ⟨st', hres, hslots⟩ := hrun.delivers hstreams hcs
  refine ⟨st', hres, fun slot hnone => ?_, fun slot p hp => ?_, fun es heof => ?_⟩
  · have hslot := hslots slot
    rw [hnone] at hslot
    exact hslot
  · have hslot := hslots slot
    rw [hp] at hslot
    exact hslot
  · rw [tsIteration, if_pos heof]
    exact ⟨_, rfl⟩

/-- A transport packet that is filled by its payload. -/
def filledPacket (isStart : Bool) (pid : UInt8) (data : List UInt8) (h : data.length = 184) :
    TsWire 0 where
  b1 := if isStart then 0x41 else 0x01
  b2 := pid
  b3 := 0x10
  body := data
  trailer := []
  body_length := h
  trailer_length := List.length_nil

/-- A video packet without a length and with a PTS of one second, in two transport packets. -/
def videoPes : CutPes :=
  ⟨0xe0, 0, 0, 0x80, 0x80, [0x21, 0, 5, 0xbf, 0x21], List.replicate 170 0xaa,
    [List.replicate 184 0xab]⟩

/-- An audio packet with a length and without a PTS, in three transport packets. -/
def audioPes : CutPes :=
  ⟨0xc0, 2, 34, 0x80, 0, [], List.replicate 175 0xbb,
    [List.replicate 184 0xbc, List.replicate 184 0xbd]⟩

/-- The demuxer when it has found a video stream and an audio stream. -/
def playingTs (file : List UInt8) : TsState Unit :=
  { freshTs 188 file with
    pids := fun pid =>
      if pid = 256 then some (newPid .videoMpeg2)
      else if pid = 257 then some (newPid .audioMp2) else none
    streams := fun _ => ⟨0, true⟩
    id := fun slot => if slot = .sub then -1 else 0 }

/-- The two streams. -/
def twoPids : Slot → Option Nat
  | .audio => some 257
  | .video => some 256
  | .sub => none

/-- Their PES packets. -/
def twoPes : Slot → List CutPes
  | .audio => [audioPes]
  | .video => [videoPes]
  | .sub => []

theorem videoPes_length : videoPes.start.length = 184 := by rfl

theorem audioPes_length : audioPes.start.length = 184 := by rfl

theorem videoPes_sound : videoPes.Sound noTables true .unknown where
  fits := ⟨by decide, Nat.le_of_eq videoPes_length, fun _ => by decide,
    Or.inr ⟨by decide, rfl, Or.inl (by decide)⟩⟩
  wanted := ⟨fun _ => Or.inl rfl, Or.inr (Or.inr (Or.inl (by decide))), by decide⟩
  nonempty := by decide

theorem audioPes_sound : audioPes.Sound noTables false .unknown where
  fits := ⟨by decide, Nat.le_of_eq audioPes_length, fun h => absurd rfl h,
    Or.inl (by decide +kernel)⟩
  wanted := ⟨fun _ => Or.inl rfl, Or.inr (Or.inr (Or.inr (by decide))), by decide⟩
  nonempty := by decide

theorem playingTs_streams (file : List UInt8) :
    PesStreams noTables (playingTs file) twoPids twoPes where
  fifos := freshTs_ok 188 file
  distinct := by
    intro slot slot' p h h'
    cases slot <;> cases slot' <;> cases h <;> cases h' <;> rfl
  selected := by
    intro slot p h
    cases slot with
    | audio =>
      cases h
      refine ⟨_, rfl, ⟨by decide, by decide, rfl, rfl, rfl⟩, fun pes hpes => ?_⟩
      rw [List.mem_singleton.mp hpes]
      exact audioPes_sound
    | video =>
      cases h
      refine ⟨_, rfl, ⟨by decide, by decide, rfl, rfl, rfl⟩, fun pes hpes => ?_⟩
      rw [List.mem_singleton.mp hpes]
      exact videoPes_sound
    | sub => cases h

section FilledPacket

variable {isStart : Bool} {pid : UInt8} {data : List UInt8} {h : data.length = 184}

theorem filledPacket_head :
    (filledPacket isStart pid data h).head = ⟨false, isStart, 256 + pid.toNat, 1⟩ := by
  have hafc : ((0x10 : UInt8) >>> 4 &&& 3).toNat = 1 := by decide
  cases isStart with
  | false =>
    have hpid : ((0x01 : UInt8) &&& 0x1f).toNat = 1 := by decide
    have herror : decide ((0x01 : UInt8) &&& 0x80 ≠ 0) = false := by decide
    have hstart : decide ((0x01 : UInt8) &&& 0x40 ≠ 0) = false := by decide
    show tsHead 0x01 pid 0x10 = _
    rw [tsHead, hafc, hpid, herror, hstart]
  | true =>
    have hpid : ((0x41 : UInt8) &&& 0x1f).toNat = 1 := by decide
    have herror : decide ((0x41 : UInt8) &&& 0x80 ≠ 0) = false := by decide
    have hstart : decide ((0x41 : UInt8) &&& 0x40 ≠ 0) = true := by decide
    show tsHead 0x41 pid 0x10 = _
    rw [tsHead, hafc, hpid, herror, hstart]

/-- What is left of such a packet is some of its payload. -/
theorem filledPacket_unread (st : TsState T) {b : UInt8}
    (hb : b ∈ (filledPacket isStart pid data h).unread st) : b ∈ data := by
  have hbody : (filledPacket isStart pid data h).body ++ [] = data := List.append_nil data
  unfold TsWire.unread at hb
  dsimp only at hb
  split at hb
  · exact hbody ▸ List.mem_of_mem_drop hb
  · split at hb
    · exact absurd hb List.not_mem_nil
    · exact absurd hb List.not_mem_nil

/-- The bytes in front of the stream are read, but for some without a sync byte. -/
def Ahead (st : TsState T) (bytes : List UInt8) : Prop :=
  st.reader.eof = false ∧ ∃ skipped, tsSyncByte ∉ skipped ∧ st.reader.rest = skipped ++ bytes

/-- Such a packet is read, and the next one is found. -/
theorem filledPacket_iteration {env : TsEnv T} (hsync : tsSyncByte ∉ data) (hok : FifosOk st)
    (hsize : st.packetSize = 188) {rest : List UInt8}
    (hahead : Ahead st ((filledPacket isStart pid data h).bytes ++ rest)) (es : EsStream) :
    ∃ o es' st', tsIteration env false es st = .ok (o, es', st') ∧ FifosOk st' ∧
      st'.packetSize = 188 ∧ Ahead st' rest := by
  have hle : st.packetSize ≤ tsFecPacketSize := by
    rw [hsize]
    decide
  obtain ⟨heof, skipped, hskipped, hrest⟩ := hahead
  obtain ⟨o, es', st', pos, hiter, hok', hsize', hreader, -⟩ := tsIteration_wire
    (filledPacket isStart pid data h) env false es hok hsize hle hskipped heof hrest
  refine ⟨o, es', st', hiter, hok', hsize'.trans hsize, ?_,
    (filledPacket isStart pid data h).unread st, ?_, ?_⟩
  · rw [hreader]
  · exact fun hmem => hsync (filledPacket_unread st hmem)
  · rw [hreader]

/-- What the packets carry. -/
theorem filledPacket_carries :
    (filledPacket isStart pid data h).Carries ⟨256 + pid.toNat, isStart, data⟩ where
  noError := by rw [filledPacket_head]
  isStart := by rw [filledPacket_head]
  pid := by rw [filledPacket_head]
  payload := Or.inl ⟨by rw [filledPacket_head], rfl⟩

theorem filledPacket_found (hsize : st.packetSize = 188) {rest : List UInt8}
    (hahead : Ahead st ((filledPacket isStart pid data h).bytes ++ rest)) :
    Found st (filledPacket isStart pid data h) where
  packetSize := hsize
  eof := hahead.1
  rest := by
    obtain ⟨-, skipped, hskipped, hrest⟩ := hahead
    exact ⟨skipped, rest, hskipped, hrest⟩

end FilledPacket

/-- The payload of a packet that is filled by it, which could not be taken for the begin of the next
one. -/
structure FullPayload where
  isStart : Bool
  pid : UInt8
  data : List UInt8
  length : data.length = 184
  noSync : tsSyncByte ∉ data

/-- The bytes of packets that are filled. -/
def filledPackets (packets : List FullPayload) : List UInt8 :=
  packets.flatMap fun p => (filledPacket p.isStart p.pid p.data p.length).bytes

/-- What filled packets carry. -/
def filledChunks (packets : List FullPayload) : List Chunk :=
  packets.map fun p => ⟨256 + p.pid.toNat, p.isStart, p.data⟩

/-- FullPayload packets are read one after the other. -/
theorem filledPackets_run {env : TsEnv T} (packets : List FullPayload) (hok : FifosOk st)
    (hsize : st.packetSize = 188) (hahead : Ahead st (filledPackets packets)) (es : EsStream) :
    ∃ st', ChunkRun env st (filledChunks packets) (.ok st') := by
  induction packets generalizing st es with
  | nil => exact ⟨st, .done⟩
  | cons p packets ih =>
    obtain ⟨o, es', st1, hiter, hok1, hsize1, hahead1⟩ :=
      filledPacket_iteration p.noSync hok hsize hahead es
    obtain ⟨st', hrun⟩ := ih hok1 hsize1 hahead1 es'
    exact ⟨st', .step (filledPacket_found hsize hahead) filledPacket_carries hiter hrun⟩

/-- A video packet and an audio packet, cut and interleaved. -/
def twoPackets : List FullPayload :=
  [⟨true, 0, videoPes.start, videoPes_length, by decide⟩,
    ⟨true, 1, audioPes.start, audioPes_length, by decide⟩,
    ⟨false, 1, List.replicate 184 0xbc, List.length_replicate, by decide⟩,
    ⟨false, 0, List.replicate 184 0xab, List.length_replicate, by decide⟩,
    ⟨false, 1, List.replicate 184 0xbd, List.length_replicate, by decide⟩]

/-- Both streams are given their data. -/
theorem pes_packets_survive_two :
    ∃ st', ChunkRun noTables (playingTs (filledPackets twoPackets))
        (filledChunks twoPackets) (.ok st') ∧
      Delivers .unknown [] [videoPes] (st'.dumped .video) ∧
      Delivers .unknown [] [audioPes] (st'.dumped .audio) := by
  have hstreams := playingTs_streams (filledPackets twoPackets)
  obtain ⟨st', hrun⟩ := @filledPackets_run _ _ noTables twoPackets hstreams.fifos rfl
    ⟨rfl, [], List.not_mem_nil, rfl⟩ EsStream.zero
  have hcs : Interleaves twoPids twoPes (filledChunks twoPackets) := by
    refine ⟨fun c hc => ?_, fun slot p hp => ?_⟩
    · have hpid : c.pid = 256 ∨ c.pid = 257 := by
        have hall : ∀ c ∈ (filledChunks twoPackets), c.pid = 256 ∨ c.pid = 257 := by decide
        exact hall c hc
      rcases hpid with hvideo | haudio
      · exact ⟨.video, congrArg some hvideo.symm⟩
      · exact ⟨.audio, congrArg some haudio.symm⟩
    · cases slot <;> cases hp
      · rfl
      · rfl
  obtain ⟨st1, hres, -, hslots, -⟩ := pes_packets_survive hstreams hcs hrun
  cases hres
  exact ⟨st', hrun, hslots .video 256 rfl, hslots .audio 257 rfl⟩

/-- A packet of private stream 1, with AC-3 data behind a header of four bytes. -/
def headedPes : CutPes :=
  ⟨0xbd, 0, 178, 0x84, 0, [], 0x80 :: 1 :: 0 :: 1 :: List.replicate 171 0xbb, []⟩

theorem headedPes_length : headedPes.start.length = 184 := by rfl

/-- Its transport packet. -/
def headedPayload : FullPayload := ⟨true, 1, headedPes.start, headedPes_length, by decide⟩

theorem headedPes_sound : headedPes.Sound noTables false .unknown where
  fits := ⟨by decide, Nat.le_of_eq headedPes_length, fun h => absurd rfl h,
    Or.inl (by decide +kernel)⟩
  wanted := ⟨fun _ => Or.inl rfl, Or.inr (Or.inl rfl), by decide⟩
  nonempty := fun _ h => absurd h List.not_mem_nil

/-- The demuxer when it has found a stream of AC-3. -/
def a52Ts (file : List UInt8) : TsState Unit :=
  { playingTs file with pids := fun pid => if pid = 257 then some (newPid .audioA52) else none }

/-- The streams of `a52Ts`. -/
def onePid : Slot → Option Nat
  | .audio => some 257
  | _ => none

theorem a52Ts_streams (file : List UInt8) :
    PesStreams noTables (a52Ts file) onePid fun _ => [headedPes] where
  fifos := freshTs_ok 188 file
  distinct := by
    intro slot slot' p h h'
    cases slot <;> cases h
    cases slot' <;> cases h'
    rfl
  selected := by
    intro slot p h
    cases slot with
    | audio =>
      cases h
      refine ⟨_, rfl, ⟨by decide, by decide, rfl, rfl, rfl⟩, fun pes hpes => ?_⟩
      rw [List.mem_singleton.mp hpes]
      exact headedPes_sound
    | video => cases h
    | sub => cases h

/-- The header of private stream 1 is not passed on. -/
theorem pes_packets_survive_without_header :
    headedPes.Fits false ∧ ∃ st', ChunkRun noTables
        (a52Ts (filledPackets [headedPayload])) [⟨257, true, headedPes.start⟩] (.ok st') ∧
      (st'.dumped .audio).flatMap (fun pack => pack.buffer) ≠ headedPes.payload := by
  obtain ⟨st', hrun⟩ := @filledPackets_run _ _ noTables [headedPayload] (a52Ts_streams _).fifos rfl
    ⟨rfl, [], List.not_mem_nil, rfl⟩ EsStream.zero
  have hcs : Interleaves onePid (fun _ => [headedPes]) [⟨257, true, headedPes.start⟩] := by
    refine ⟨fun c hc => ⟨.audio, ?_⟩, fun slot p hp => ?_⟩
    · rw [List.mem_singleton.mp hc]
      rfl
    · cases slot with
      | audio =>
        cases hp
        rfl
      | video => cases hp
      | sub => cases hp
  obtain ⟨st1, hres, hslots⟩ := hrun.delivers (a52Ts_streams _) hcs
  cases hres
  obtain ⟨pss, hpss, hqueue⟩ := hslots .audio
  refine ⟨headedPes_sound.fits, st', hrun, ?_⟩
  cases hpss with
  | @cons _ packs _ _ hpacked hrest =>
    cases hrest
    have hall : st'.dumped .audio = packs := hqueue.trans (List.append_nil packs)
    intro heq
    rw [hall] at heq
    have hbytes : headedPes.taken .unknown = headedPes.payload := hpacked.bytes.symm.trans heq
    exact absurd hbytes (by decide +kernel)

end MPlayer
