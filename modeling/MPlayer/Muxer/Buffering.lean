import MPlayer.Muxer.Basic
import MPlayer.Lib.Fin

/-!
# Start-up buffering

Without buffering every frame is written at once.  `direct` is what the container gets then, and
`counted` what becomes of the counters.  A buffered frame is written later, when `muxer_flush` has
put the stored bytes back into the stream, and the stored `dts` in the place of the timer.  So the
container sees the same frames only where the two agree.
-/

namespace MPlayer

variable {D : Type} {n : Nat}

section Specification

variable [DecidableEq D] (clock : Clock D)

/-! ## Writing at once -/

/-- The counters of all streams. -/
abbrev AllCounters (D : Type) (n : Nat) := Fin n → Counters D

/-- The frame as the container gets it when the timer of its stream is this one. -/
def Frame.written (f : Frame D n) (timer : D) : Written D n :=
  ⟨f.stream, f.buffer.take f.len, f.len, f.flags, clock.orTimer timer f.dts,
    clock.orTimer timer f.pts, timer⟩

/-- The counters after a frame. -/
def Frame.count (f : Frame D n) (k : AllCounters D n) : AllCounters D n :=
  Function.update k f.stream ((k f.stream).alter clock f.len)

/-- What the container gets without buffering. -/
def direct : AllCounters D n → List (Frame D n) → List (Written D n)
  | _, [] => []
  | k, f :: frames => f.written clock (k f.stream).timer :: direct (f.count clock k) frames

def counted (k : AllCounters D n) (frames : List (Frame D n)) : AllCounters D n :=
  frames.foldl (fun k f => f.count clock k) k

/-- The counters in a muxer. -/
def Muxer.counters (m : Muxer D n) : AllCounters D n := fun i => (m.streams i).toCounters

/-- A muxer that no frame has reached. -/
structure Muxer.Fresh (m : Muxer D n) : Prop where
  muxbuf : m.muxbuf = []
  skip : m.muxbufSkipBuffer = false
  seen : ∀ i, (m.streams i).muxbufSeen = false
  log : m.log = []

/-- The muxer with buffering turned off. -/
def Muxer.unbuffered (m : Muxer D n) : Muxer D n := { m with muxbufSkipBuffer := true }

/-- Every chunk comes behind a header. -/
def HeaderFirst (log : List (MuxerEvent D n)) : Prop :=
  ∀ before w after, log = before ++ .chunk w :: after → .header ∈ before

/-- Buffering changes nothing: the container gets the same chunks, behind a header if it writes
one, and the counters end up the same. -/
structure Transparent (m : Muxer D n) (frames : List (Frame D n)) : Prop where
  chunks : (m.run clock frames).chunks = (m.unbuffered.run clock frames).chunks
  header : m.contWriteHeader = true → HeaderFirst (m.run clock frames).log
  counters : (m.run clock frames).counters = (m.unbuffered.run clock frames).counters

/-- The streams that have had a frame that is not empty. -/
def Frame.see (f : Frame D n) (seen : Fin n → Bool) : Fin n → Bool :=
  if 0 < f.len then Function.update seen f.stream true else seen

/-- Every frame, up to the one with which all streams have had one that is not empty, comes
without a `dts` or with the timer of its stream. -/
def OnTime : (Fin n → Bool) → AllCounters D n → List (Frame D n) → Prop
  | _, _, [] => True
  | seen, k, f :: frames => (f.dts = clock.nopts ∨ f.dts = (k f.stream).timer) ∧
      ((∀ i, f.see seen i) ∨ OnTime (f.see seen) (f.count clock k) frames)

end Specification

/-! ## `muxer_flush` -/

@[simp] theorem Muxer.setStream_streams (m : Muxer D n) (i : Fin n) (s : MuxerStream D) :
    (m.setStream i s).streams i = s := Function.update_self ..

@[simp] theorem Muxer.setStream_self (m : Muxer D n) (i : Fin n) :
    m.setStream i (m.streams i) = m := by
  simp [Muxer.setStream]

theorem Muxer.seen_setStream (m : Muxer D n) (i : Fin n) (s : MuxerStream D) :
    (m.setStream i s).seen = Function.update m.seen i s.muxbufSeen := by
  funext j
  by_cases h : j = i
  · subst h
    simp [Muxer.seen]
  · simp [Muxer.seen, Muxer.setStream, h]

theorem Muxer.counters_setStream (m : Muxer D n) (i : Fin n) (s : MuxerStream D) :
    (m.setStream i s).counters = Function.update m.counters i s.toCounters := by
  funext j
  by_cases h : j = i
  · subst h
    simp [Muxer.counters]
  · simp [Muxer.counters, Muxer.setStream, h]

/-- A buffered frame as the container gets it. -/
def Muxbuf.written (buf : Muxbuf D n) : Written D n :=
  ⟨buf.stream, buf.buffer.take buf.len, buf.len, buf.flags, buf.dts, buf.pts, buf.dts⟩

/-- The timer and the buffer of each stream are restored. -/
theorem muxerSendFrames_eq : ∀ (bufs : List (Muxbuf D n)) (m : Muxer D n),
    muxerSendFrames bufs m = { m with log := m.log ++ bufs.map fun buf => .chunk buf.written }
  | [], m => by simp [muxerSendFrames]
  | buf :: bufs, m => by
    have hone : muxerSendFrames (buf :: bufs) m =
        muxerSendFrames bufs (m.event (.chunk buf.written)) := by
      rw [muxerSendFrames]
      simp only [Muxer.setStream_streams, contWriteChunk]
      congr 1
      simp [Muxer.setStream, Muxer.event, Muxbuf.written]
    rw [hone, muxerSendFrames_eq bufs]
    simp [Muxer.event]

/-- What is called before the buffered frames are sent. -/
def Muxer.opening (m : Muxer D n) : List (MuxerEvent D n) :=
  (if m.fixStreamParameters then (List.finRange n).map .fix else []) ++
    if m.contWriteHeader then [.header] else []

theorem muxerFixStreams_eq (m : Muxer D n) : muxerFixStreams m = { m with
    log := m.log ++ if m.fixStreamParameters then (List.finRange n).map .fix else [] } := by
  rw [muxerFixStreams]
  split
  next h => rfl
  next h => rw [List.append_nil]

theorem muxerWriteHeader_eq (m : Muxer D n) : muxerWriteHeader m = { m with
    contWriteHeader := m.contWriteHeader && m.keepsHeader
    log := m.log ++ if m.contWriteHeader then [.header] else [] } := by
  rw [muxerWriteHeader]
  split
  next h =>
    rw [h, Bool.true_and]
    rfl
  next h =>
    have hsame : (m.contWriteHeader && m.keepsHeader) = m.contWriteHeader := by simp [h]
    rw [hsame, List.append_nil]

variable {m : Muxer D n}

theorem muxerFlush_eq (h : m.muxbuf ≠ []) : muxerFlush m = { m with
    muxbuf := []
    contWriteHeader := m.contWriteHeader && m.keepsHeader
    log := m.log ++ m.opening ++ m.muxbuf.map fun buf => .chunk buf.written } := by
  rw [muxerFlush, if_neg h, muxerFixStreams_eq, muxerWriteHeader_eq]
  dsimp only
  rw [muxerSendFrames_eq, List.append_assoc m.log]
  rfl

/-! ## The log -/

theorem chunks_map (ws : List (Written D n)) :
    (ws.map MuxerEvent.chunk).filterMap MuxerEvent.chunk? = ws := by
  induction ws with
  | nil => rfl
  | cons w ws ih =>
    rw [List.map_cons, List.filterMap_cons, ih]
    rfl

theorem Muxer.opening_chunks (m : Muxer D n) : m.opening.filterMap MuxerEvent.chunk? = [] := by
  have hfix (is : List (Fin n)) :
      (is.map fun i => (.fix i : MuxerEvent D n)).filterMap MuxerEvent.chunk? = [] := by
    induction is with
    | nil => rfl
    | cons i is ih =>
      rw [List.map_cons, List.filterMap_cons, ih]
      rfl
  rw [Muxer.opening, List.filterMap_append]
  cases m.fixStreamParameters with
  | true =>
    cases m.contWriteHeader with
    | true => simp [hfix, MuxerEvent.chunk?]
    | false => simp [hfix]
  | false =>
    cases m.contWriteHeader with
    | true => rfl
    | false => rfl

theorem muxerFlush_nil (h : m.muxbuf = []) : muxerFlush m = m := if_pos h

/-- Closing writes no more chunks than flushing. -/
theorem muxerClose_log (m : Muxer D n) : ∃ tail, (muxerClose m).log = (muxerFlush m).log ++ tail ∧
    tail.filterMap MuxerEvent.chunk? = [] := by
  rw [muxerClose, muxerWriteIndex]
  split
  · refine ⟨[.index] ++ if (muxerFlush m).contWriteHeader then [.header] else [], ?_, ?_⟩
    · rw [muxerWriteHeader_eq, ← List.append_assoc]
      rfl
    · cases (muxerFlush m).contWriteHeader with
      | true => rfl
      | false => rfl
  · refine ⟨if (muxerFlush m).contWriteHeader then [.header] else [], ?_, ?_⟩
    · rw [muxerWriteHeader_eq]
    · cases (muxerFlush m).contWriteHeader with
      | true => rfl
      | false => rfl

theorem muxerClose_counters (m : Muxer D n) :
    (muxerClose m).counters = (muxerFlush m).counters := by
  rw [muxerClose, muxerWriteHeader_eq, muxerWriteIndex]
  split
  · rfl
  · rfl

theorem headerFirst_of_opening {pre rest : List (MuxerEvent D n)} (hheader : .header ∈ pre)
    (hchunks : pre.filterMap MuxerEvent.chunk? = []) : HeaderFirst (pre ++ rest) := by
  intro before w after heq
  rcases List.append_eq_append_iff.mp heq with ⟨more, hbefore, -⟩ | ⟨more, hpre, hrest⟩
  · rw [hbefore]
    exact List.mem_append_left more hheader
  · cases more with
    | nil =>
      rw [List.append_nil] at hpre
      exact hpre ▸ hheader
    | cons e more =>
      rw [List.cons_append, List.cons.injEq] at hrest
      rw [hpre, ← hrest.1, List.filterMap_append] at hchunks
      simp [MuxerEvent.chunk?] at hchunks

/-! ## Marks -/

theorem Frame.see_eq (f : Frame D n) (seen : Fin n → Bool) : f.see seen =
    Function.update seen f.stream (seen f.stream || decide (0 < f.len)) := by
  rw [Frame.see]
  split
  next h => rw [decide_eq_true h, Bool.or_true]
  next h => rw [decide_eq_false h, Bool.or_false, Function.update_eq_self]

theorem muxerBufferFrame_eq (m : Muxer D n) (i : Fin n) (len flags : Nat) (dts pts : D) :
    muxerBufferFrame m i len flags dts pts =
      { m with muxbuf := m.muxbuf ++
          [(⟨i, dts, pts, (m.streams i).buffer.take len, len, flags⟩ : Muxbuf D n)] }.setStream i
        { m.streams i with muxbufSeen := (m.streams i).muxbufSeen || decide (0 < len) } := by
  rw [muxerBufferFrame]
  dsimp only
  split
  next h => rw [decide_eq_true h, Bool.or_true]
  next h =>
    rw [decide_eq_false h, Bool.or_false]
    exact (Muxer.setStream_self _ i).symm

theorem muxerTryFlush_all (h : ∀ i, m.seen i) :
    muxerTryFlush m = muxerFlush { m with muxbufSkipBuffer := true } := by
  rw [muxerTryFlush, decide_eq_true h]
  rfl

theorem muxerTryFlush_wait (h : ¬∀ i, m.seen i) :
    muxerTryFlush m = { m with muxbufSkipBuffer := false } := by
  rw [muxerTryFlush, decide_eq_false h]
  rfl

variable [DecidableEq D] (clock : Clock D)

/-! ## `muxer_write_chunk` -/

/-- A frame as it is buffered. -/
def Frame.buffered (f : Frame D n) (timer : D) : Muxbuf D n :=
  ⟨f.stream, clock.orTimer timer f.dts, clock.orTimer timer f.pts, f.buffer.take f.len, f.len,
    f.flags⟩

/-- The muxer with the stream of a frame as the frame leaves it. -/
def Muxer.advance (m : Muxer D n) (f : Frame D n) (seen : Bool) : Muxer D n :=
  m.setStream f.stream ⟨(m.streams f.stream).alter clock f.len, f.buffer, seen⟩

theorem Muxer.send_eq (m : Muxer D n) (f : Frame D n) : m.send clock f =
    let m' := m.setStream f.stream { m.streams f.stream with buffer := f.buffer }
    let buf := f.buffered clock (m.streams f.stream).timer
    (if m.muxbufSkipBuffer then contWriteChunk m' f.stream f.len f.flags buf.dts buf.pts
      else muxerTryFlush (muxerBufferFrame m' f.stream f.len f.flags buf.dts buf.pts)).alterCounters
        clock f.stream f.len := by
  rw [Muxer.send, muxerWriteChunk, Muxer.setStream_streams]
  rfl

theorem Muxer.send_direct (h : m.muxbufSkipBuffer = true) (f : Frame D n) :
    m.send clock f = { m.advance clock f (m.streams f.stream).muxbufSeen with
      log := m.log ++ [.chunk (f.written clock (m.counters f.stream).timer)] } := by
  rw [Muxer.send_eq]
  dsimp only
  rw [if_pos h, contWriteChunk, Muxer.setStream_streams]
  simp [Muxer.alterCounters, Muxer.event, Muxer.advance, Muxer.setStream, Frame.written,
    Frame.buffered, Muxer.counters]

/-- The muxer with one more frame in its buffer. -/
def Muxer.stored (m : Muxer D n) (f : Frame D n) : Muxer D n :=
  { m with muxbuf := m.muxbuf ++ [f.buffered clock (m.counters f.stream).timer] }.setStream f.stream
    ⟨(m.streams f.stream).toCounters, f.buffer,
      (m.streams f.stream).muxbufSeen || decide (0 < f.len)⟩

theorem Muxer.stored_seen (m : Muxer D n) (f : Frame D n) :
    (m.stored clock f).seen = f.see m.seen := by
  rw [Frame.see_eq]
  exact Muxer.seen_setStream _ f.stream _

theorem Muxer.send_stored (h : m.muxbufSkipBuffer = false) (f : Frame D n) :
    m.send clock f = (muxerTryFlush (m.stored clock f)).alterCounters clock f.stream f.len := by
  rw [Muxer.send_eq]
  dsimp only
  rw [h, if_neg Bool.false_ne_true, muxerBufferFrame_eq, Muxer.setStream_streams]
  congr 2
  simp [Muxer.stored, Muxer.setStream, Frame.buffered, Muxer.counters]

/-- The muxer behind a frame that is only buffered. -/
def Muxer.hold (m : Muxer D n) (f : Frame D n) : Muxer D n :=
  (m.stored clock f).alterCounters clock f.stream f.len

/-- A frame that does not end the buffering. -/
theorem Muxer.send_hold (h : m.muxbufSkipBuffer = false) {f : Frame D n}
    (hwait : ¬∀ i, f.see m.seen i) : m.send clock f = m.hold clock f := by
  have hskip : { m.stored clock f with muxbufSkipBuffer := false } = m.stored clock f := by
    rw [← h]
    rfl
  rw [Muxer.send_stored clock h, muxerTryFlush_wait (by rwa [Muxer.stored_seen]), hskip]
  rfl

/-- The frame that ends the buffering. -/
theorem Muxer.send_flush (h : m.muxbufSkipBuffer = false) {f : Frame D n}
    (hall : ∀ i, f.see m.seen i) :
    m.send clock f = muxerFlush { m.hold clock f with muxbufSkipBuffer := true } := by
  have hne : m.muxbuf ++ [f.buffered clock (m.counters f.stream).timer] ≠ [] := by simp
  rw [Muxer.send_stored clock h, muxerTryFlush_all (by rwa [Muxer.stored_seen]),
    muxerFlush_eq (by exact hne), muxerFlush_eq (by exact hne)]
  rfl

/-! ## Runs -/

theorem Muxer.hold_counters (m : Muxer D n) (f : Frame D n) :
    (m.hold clock f).counters = f.count clock m.counters := by
  rw [Muxer.hold, Muxer.alterCounters, Muxer.counters_setStream, Muxer.stored,
    Muxer.setStream_streams, Muxer.counters_setStream, Function.update_idem]
  rfl

theorem Muxer.hold_seen (m : Muxer D n) (f : Frame D n) :
    (m.hold clock f).seen = f.see m.seen := by
  rw [Muxer.hold, Muxer.alterCounters, Muxer.seen_setStream, ← Muxer.stored_seen clock m f]
  exact Function.update_eq_self f.stream (m.stored clock f).seen

/-- The muxer after the frames, before it is closed. -/
def Muxer.sendAll (m : Muxer D n) (frames : List (Frame D n)) : Muxer D n :=
  frames.foldl (Muxer.send clock) m

omit [DecidableEq D] in
theorem Muxer.advance_counters (m : Muxer D n) (f : Frame D n) (seen : Bool) :
    (m.advance clock f seen).counters = f.count clock m.counters :=
  m.counters_setStream f.stream _

/-- A run that writes every frame at once. -/
theorem Muxer.sendAll_direct : ∀ (frames : List (Frame D n)) {m : Muxer D n},
    m.muxbufSkipBuffer = true →
    (m.sendAll clock frames).log = m.log ++ (direct clock m.counters frames).map .chunk ∧
      (m.sendAll clock frames).counters = counted clock m.counters frames ∧
      (m.sendAll clock frames).muxbuf = m.muxbuf
  | [], m, _ => ⟨by simp [Muxer.sendAll, direct], rfl, rfl⟩
  | f :: frames, m, h => by
    have hone := Muxer.send_direct clock h f
    have hcounters : (m.send clock f).counters = f.count clock m.counters := by
      rw [hone]
      exact m.advance_counters clock f _
    obtain ⟨hlog, hcount, hbuf⟩ := Muxer.sendAll_direct frames (m := m.send clock f) (by
      rw [hone]
      exact h)
    refine ⟨hlog.trans ?_, hcount.trans ?_, hbuf.trans ?_⟩
    · rw [hcounters, hone, direct, List.map_cons, List.append_assoc]
      rfl
    · rw [hcounters]
      rfl
    · rw [hone]
      rfl

/-- The frame as the container gets it from the buffer. -/
def Frame.replayed (f : Frame D n) (timer : D) : Written D n :=
  { f.written clock timer with timer := clock.orTimer timer f.dts }

/-- What the container gets with buffering. -/
def replayed : (Fin n → Bool) → AllCounters D n → List (Frame D n) → List (Written D n)
  | _, _, [] => []
  | seen, k, f :: frames => f.replayed clock (k f.stream).timer ::
      if ∀ i, f.see seen i then direct clock (f.count clock k) frames
      else replayed (f.see seen) (f.count clock k) frames

theorem Frame.buffered_written (f : Frame D n) (timer : D) :
    (f.buffered clock timer).written = f.replayed clock timer := by
  simp [Frame.buffered, Muxbuf.written, Frame.replayed, Frame.written, List.take_take]

/-- The muxer behind the frame that ends the buffering. -/
theorem Muxer.flush_hold (m : Muxer D n) (f : Frame D n) :
    muxerFlush { m.hold clock f with muxbufSkipBuffer := true } = { m.hold clock f with
      muxbufSkipBuffer := true
      muxbuf := []
      contWriteHeader := m.contWriteHeader && m.keepsHeader
      log := m.log ++ m.opening ++ (m.muxbuf.map Muxbuf.written ++
        [f.replayed clock (m.counters f.stream).timer]).map .chunk } := by
  have hne : m.muxbuf ++ [f.buffered clock (m.counters f.stream).timer] ≠ [] := by simp
  rw [muxerFlush_eq (by exact hne)]
  simp [Muxer.hold, Muxer.alterCounters, Muxer.stored, Muxer.setStream, Frame.buffered_written,
    Muxer.opening]

/-- A run that buffers frames first. -/
theorem Muxer.sendAll_buffered : ∀ (frames : List (Frame D n)) {m : Muxer D n},
    m.muxbufSkipBuffer = false →
    (muxerFlush (m.sendAll clock frames)).log = m.log ++
        (if m.muxbuf = [] ∧ frames = [] then [] else m.opening) ++
        (m.muxbuf.map Muxbuf.written ++ replayed clock m.seen m.counters frames).map .chunk ∧
      (muxerFlush (m.sendAll clock frames)).counters = counted clock m.counters frames
  | [], m, _ => by
    by_cases hnil : m.muxbuf = []
    · rw [muxerFlush_nil (by exact hnil), if_pos ⟨hnil, rfl⟩, hnil]
      exact ⟨by simp [Muxer.sendAll, replayed], rfl⟩
    · rw [muxerFlush_eq (by exact hnil), if_neg fun h => hnil h.1]
      refine ⟨?_, rfl⟩
      rw [replayed, List.append_nil, List.map_map]
      rfl
  | f :: frames, m, h => by
    have hne : ¬(m.muxbuf = [] ∧ f :: frames = []) := fun h => by cases h.2
    by_cases hall : ∀ i, f.see m.seen i
    · have hone : m.send clock f = _ :=
        (Muxer.send_flush clock h hall).trans (m.flush_hold clock f)
      obtain ⟨hlog, hcount, hbuf⟩ := Muxer.sendAll_direct clock frames
        (m := m.send clock f) (by rw [hone])
      have hcounters : (m.send clock f).counters = f.count clock m.counters := by
        rw [hone]
        exact m.hold_counters clock f
      have hflush : muxerFlush (m.sendAll clock (f :: frames)) =
          (m.send clock f).sendAll clock frames :=
        muxerFlush_nil (hbuf.trans (by rw [hone]))
      rw [hflush, if_neg hne, hlog, hcount, hcounters, replayed, if_pos hall]
      refine ⟨?_, rfl⟩
      rw [hone]
      simp [Muxer.counters]
    · have hone := Muxer.send_hold clock h hall
      obtain ⟨hlog, hcount⟩ := Muxer.sendAll_buffered frames (m := m.hold clock f) h
      have hflush : muxerFlush (m.sendAll clock (f :: frames)) =
          muxerFlush ((m.hold clock f).sendAll clock frames) := by
        rw [← hone]
        rfl
      rw [hflush, hlog, hcount, Muxer.hold_counters, Muxer.hold_seen, if_neg hne, replayed,
        if_neg hall]
      refine ⟨?_, rfl⟩
      simp [Muxer.hold, Muxer.alterCounters, Muxer.stored, Muxer.setStream,
        Frame.buffered_written, Muxer.opening]

/-! ## Transparency -/

/-- A frame is buffered as it is written if its `dts` is the timer. -/
theorem Clock.orTimer_eq_iff (timer t : D) :
    clock.orTimer timer t = timer ↔ t = clock.nopts ∨ t = timer := by
  rw [Clock.orTimer]
  split
  next h => exact iff_of_true rfl (Or.inl h)
  next h => exact ⟨Or.inr, fun h' => h'.resolve_left h⟩

theorem Frame.replayed_eq_iff (f : Frame D n) (timer : D) :
    f.replayed clock timer = f.written clock timer ↔ f.dts = clock.nopts ∨ f.dts = timer := by
  rw [← Clock.orTimer_eq_iff]
  simp [Frame.replayed, Frame.written]

theorem onTime_iff : ∀ (frames : List (Frame D n)) (seen : Fin n → Bool) (k : AllCounters D n),
    OnTime clock seen k frames ↔ replayed clock seen k frames = direct clock k frames
  | [], _, _ => iff_of_true trivial rfl
  | f :: frames, seen, k => by
    rw [OnTime, replayed, direct, List.cons.injEq, Frame.replayed_eq_iff]
    refine and_congr_right fun _ => ?_
    split
    next hall => exact iff_of_true (Or.inl hall) rfl
    next hall => rw [← onTime_iff frames, or_iff_right hall]

/-- What a muxer that buffers frames has logged in the end. -/
theorem Muxer.Fresh.run_log (h : m.Fresh) (frames : List (Frame D n)) :
    ∃ tail, tail.filterMap MuxerEvent.chunk? = [] ∧ (m.run clock frames).log =
      (if frames = [] then [] else m.opening) ++
        (replayed clock (fun _ => false) m.counters frames).map .chunk ++ tail := by
  obtain ⟨tail, hlog, htail⟩ := muxerClose_log (m.sendAll clock frames)
  have hseen : m.seen = fun _ => false := funext h.seen
  have hbuf := (Muxer.sendAll_buffered clock frames h.skip).1
  simp only [h.log, h.muxbuf, hseen, true_and, List.nil_append, List.map_nil] at hbuf
  exact ⟨tail, htail, hlog.trans (congrArg (· ++ tail) hbuf)⟩

theorem Muxer.Fresh.run_chunks (h : m.Fresh) (frames : List (Frame D n)) :
    (m.run clock frames).chunks = replayed clock (fun _ => false) m.counters frames := by
  obtain ⟨tail, htail, hlog⟩ := h.run_log clock frames
  rw [Muxer.chunks, hlog, List.filterMap_append, List.filterMap_append, chunks_map, htail,
    List.append_nil]
  split
  · rfl
  · rw [Muxer.opening_chunks, List.nil_append]

theorem Muxer.Fresh.run_headerFirst (h : m.Fresh) (frames : List (Frame D n))
    (hheader : m.contWriteHeader = true) : HeaderFirst (m.run clock frames).log := by
  obtain ⟨tail, htail, hlog⟩ := h.run_log clock frames
  rw [hlog]
  split
  next hnil =>
    subst hnil
    intro before w after heq
    have hnone : (before ++ .chunk w :: after).filterMap MuxerEvent.chunk? = [] := heq ▸ htail
    simp [MuxerEvent.chunk?] at hnone
  next hne =>
    rw [List.append_assoc]
    refine headerFirst_of_opening (List.mem_append_right _ ?_) m.opening_chunks
    rw [if_pos hheader]
    exact List.mem_singleton_self _

theorem Muxer.Fresh.run_counters (h : m.Fresh) (frames : List (Frame D n)) :
    (m.run clock frames).counters = counted clock m.counters frames :=
  (muxerClose_counters _).trans (Muxer.sendAll_buffered clock frames h.skip).2

theorem Muxer.Fresh.unbuffered_flush (h : m.Fresh) (frames : List (Frame D n)) :
    muxerFlush (m.unbuffered.sendAll clock frames) = m.unbuffered.sendAll clock frames :=
  muxerFlush_nil (((Muxer.sendAll_direct clock frames (m := m.unbuffered) rfl).2.2).trans h.muxbuf)

theorem Muxer.Fresh.unbuffered_chunks (h : m.Fresh) (frames : List (Frame D n)) :
    (m.unbuffered.run clock frames).chunks = direct clock m.counters frames := by
  obtain ⟨tail, hlog, htail⟩ := muxerClose_log (m.unbuffered.sendAll clock frames)
  have hdirect := (Muxer.sendAll_direct clock frames (m := m.unbuffered) rfl).1
  have hempty : m.unbuffered.log = [] := h.log
  rw [hempty, List.nil_append] at hdirect
  rw [h.unbuffered_flush clock frames, hdirect] at hlog
  rw [Muxer.chunks]
  refine (congrArg _ hlog).trans ?_
  rw [List.filterMap_append, chunks_map, htail, List.append_nil]
  rfl

theorem Muxer.Fresh.unbuffered_counters (h : m.Fresh) (frames : List (Frame D n)) :
    (m.unbuffered.run clock frames).counters = counted clock m.counters frames := by
  refine (muxerClose_counters _).trans ?_
  refine (congrArg Muxer.counters (h.unbuffered_flush clock frames)).trans ?_
  exact (Muxer.sendAll_direct clock frames (m := m.unbuffered) rfl).2.1

/-- Buffering is transparent if every buffered frame comes on time, and only then. -/
theorem muxer_buffering_transparent_iff {m : Muxer D n} (h : m.Fresh) (frames : List (Frame D n)) :
    Transparent clock m frames ↔ OnTime clock (fun _ => false) m.counters frames := by
  have hchunks : (m.run clock frames).chunks =
      replayed clock (fun _ => false) m.counters frames := h.run_chunks clock frames
  have hdirect : (m.unbuffered.run clock frames).chunks = direct clock m.counters frames :=
    h.unbuffered_chunks clock frames
  have hcounters := (h.run_counters clock frames).trans (h.unbuffered_counters clock frames).symm
  rw [onTime_iff, ← hchunks, ← hdirect]
  exact ⟨Transparent.chunks, fun heq => ⟨heq, h.run_headerFirst clock frames, hcounters⟩⟩

/-! ## Two runs -/

/-- A clock of whole seconds. -/
def seconds : Clock Int where
  nopts := -1
  time := fun dwLength dwScale dwRate => dwLength.toNat * dwScale.toNat / dwRate.toNat

/-- A stream of one frame a second. -/
def idleStream : MuxerStream Int where
  timer := 0
  size := 0
  dwLength := 0
  dwScale := 1
  dwRate := 1
  dwSampleSize := 0
  buffer := []
  muxbufSeen := false

/-- A muxer with two streams. -/
def idleMuxer : Muxer Int 2 where
  streams := fun _ => idleStream
  muxbuf := []
  muxbufSkipBuffer := false
  fixStreamParameters := true
  contWriteHeader := true
  contWriteIndex := true
  keepsHeader := true
  log := []

theorem idleMuxer_fresh : idleMuxer.Fresh := ⟨rfl, rfl, fun _ => rfl, rfl⟩

/-- A frame of one byte with this `dts`. -/
def oneByte (i : Fin 2) (dts : Int) : Frame Int 2 where
  stream := i
  buffer := [7]
  len := 1
  fits := Nat.le_refl 1
  flags := 0
  dts := dts
  pts := -1

/-- Frames without a `dts`, and one with the timer of its stream. -/
theorem muxer_buffering_transparent_iff_untimed :
    Transparent seconds idleMuxer [oneByte 0 (-1), oneByte 0 1, oneByte 1 (-1), oneByte 0 9] := by
  refine (muxer_buffering_transparent_iff seconds idleMuxer_fresh _).mpr ?_
  exact ⟨Or.inl rfl, Or.inr ⟨Or.inr rfl, Or.inr ⟨Or.inl rfl, Or.inl (by decide)⟩⟩⟩

/-- A buffered frame is written with its `dts` for the timer. -/
theorem muxer_buffering_shows : ¬Transparent seconds idleMuxer [oneByte 0 5, oneByte 1 0] := by
  intro h
  exact absurd h.chunks (by decide)

end MPlayer
