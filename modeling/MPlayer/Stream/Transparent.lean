import MPlayer.Lib.Run
import MPlayer.Stream.Window

/-!
# Buffered reading is transparent

Over a seekable backend the reader cannot tell the buffered stream from the
file.  `CallCorrect` says what each of the four calls does to the logical
position and which bytes it delivers, in terms of the file alone.  It holds of
every call in every run from a stream just opened, however the backend cuts the
file into reads.

A negative position is clamped to zero, as `stream_seek` says with an error
message, and the call succeeds.  So a successful seek lands on the position asked
for only up to that clamp (`streamSeek_clamps`).
-/

namespace MPlayer

open Lib

variable {β : Type} {ops : StreamOps β} {type : StreamType} {file : List UInt8} {offset : β → Nat}

/-! ## Calls -/

/-- A call of the stream's reader. -/
inductive StreamCall where
  | read (total : Int)
  | readChar
  | skip (len : Int)
  | seek (pos : Int)
deriving DecidableEq, Repr

/-- A call with its result and the bytes it delivered to memory. -/
structure StreamEvent where
  call : StreamCall
  ret : Int
  bytes : List UInt8
deriving DecidableEq, Repr

/-- Run a call. -/
def streamCall (ops : StreamOps β) (fuel : Nat) (s : Stream β) :
    StreamCall → Option (Int × List UInt8 × Stream β)
  | .read total => streamRead ops fuel s total
  | .readChar => (streamReadChar ops fuel s).map fun r => (r.1, [], r.2)
  | .skip len => (streamSkip ops fuel s len).map fun r => (r.1, [], r.2)
  | .seek pos => (streamSeek ops fuel s pos).map fun r => (r.1, [], r.2)

/-- The call returns, with this result, these bytes and this stream. -/
def StreamStep (ops : StreamOps β) (s : Stream β) (e : StreamEvent) (t : Stream β) : Prop :=
  Returns (fun fuel => streamCall ops fuel s e.call) (e.ret, e.bytes, t)

/-- A stream just opened, standing where its backend does. -/
def Fresh (type : StreamType) (offset : β → Nat) (s : Stream β) : Prop :=
  Synced type offset s ∧ s.bufPos = 0 ∧ s.bufLen = 0

theorem Fresh.window {s : Stream β} (h : Fresh type offset s) :
    Window type file offset (offset s.priv) s := by
  obtain ⟨hsync, hpos, hlen⟩ := h
  refine ⟨hsync.type_eq, ?_, ?_, ?_, ?_⟩
  · rw [hsync.pos_eq, hlen, Nat.add_zero]
  · rw [hlen, Nat.add_zero]
  · rw [hlen]
    exact Mirrors.zero _ _ _ _
  · exact Nat.le_of_eq (hpos.trans hlen.symm)

/-! ## More fuel -/

theorem streamReadInternal_mono (ops : StreamOps β) :
    ∀ {n m : Nat} (s : Stream β) (len : Nat), n ≤ m →
      Approx (streamReadInternal ops n s len) (streamReadInternal ops m s len)
  | 0, _, _, _, _ => Approx.none _
  | n + 1, 0, _, _, h => absurd h (Nat.not_succ_le_zero n)
  | n + 1, m + 1, s, len, h => by
    simp only [streamReadInternal]
    refine Approx.ite (Approx.ite (Approx.refl _) (Approx.ite ?_ (Approx.refl _))) (Approx.refl _)
    exact streamReadInternal_mono ops _ len (Nat.le_of_succ_le_succ h)

theorem streamTopUp_mono (ops : StreamOps β) :
    ∀ {n m : Nat} (s : Stream β), n ≤ m → Approx (streamTopUp ops n s) (streamTopUp ops m s)
  | 0, _, _, _ => Approx.none _
  | n + 1, 0, _, h => absurd h (Nat.not_succ_le_zero n)
  | n + 1, m + 1, s, h => by
    have hle := Nat.le_of_succ_le_succ h
    simp only [streamTopUp]
    refine Approx.ite (Approx.bind (streamReadInternal_mono ops _ _ hle) fun r => ?_)
      (Approx.refl _)
    exact Approx.ite (Approx.refl _) (streamTopUp_mono ops _ hle)

theorem streamFillBuffer_mono (ops : StreamOps β) {n m : Nat} (s : Stream β) (h : n ≤ m) :
    Approx (streamFillBuffer ops n s) (streamFillBuffer ops m s) := by
  refine Approx.bind (streamReadInternal_mono ops _ _ h) fun r => ?_
  exact Approx.ite (Approx.refl _) (Approx.bind (streamTopUp_mono ops _ h) fun _ => Approx.refl _)

theorem streamWindow_mono (ops : StreamOps β) {n m : Nat} (s : Stream β) (h : n ≤ m) :
    Approx (streamWindow ops n s) (streamWindow ops m s) :=
  Approx.ite (Approx.bind (streamFillBuffer_mono ops s h) fun _ => Approx.refl _) (Approx.refl _)

theorem streamReadLoop_mono (ops : StreamOps β) :
    ∀ {n m : Nat} (s : Stream β) (len : Int), n ≤ m →
      Approx (streamReadLoop ops n s len) (streamReadLoop ops m s len)
  | 0, _, _, _, _ => Approx.none _
  | n + 1, 0, _, _, h => absurd h (Nat.not_succ_le_zero n)
  | n + 1, m + 1, s, len, h => by
    have hle := Nat.le_of_succ_le_succ h
    simp only [streamReadLoop]
    refine Approx.ite (Approx.bind (streamWindow_mono ops _ hle) fun w => ?_) (Approx.refl _)
    cases w.1 with
    | none => exact Approx.refl _
    | some x => exact Approx.bind (streamReadLoop_mono ops _ _ hle) fun _ => Approx.refl _

theorem streamReadTo_mono (ops : StreamOps β) (newpos : Int) :
    ∀ {n m : Nat} (s : Stream β), n ≤ m →
      Approx (streamReadTo ops newpos n s) (streamReadTo ops newpos m s)
  | 0, _, _, _ => Approx.none _
  | n + 1, 0, _, h => absurd h (Nat.not_succ_le_zero n)
  | n + 1, m + 1, s, h => by
    have hle := Nat.le_of_succ_le_succ h
    simp only [streamReadTo]
    refine Approx.ite (Approx.bind (streamFillBuffer_mono ops _ hle) fun r => ?_) (Approx.refl _)
    exact Approx.ite (Approx.refl _) (streamReadTo_mono ops newpos _ hle)

theorem streamFindPos_mono (ops : StreamOps β) :
    ∀ {n m : Nat} (s : Stream β) (pos : Int), n ≤ m →
      Approx (streamFindPos ops n s pos) (streamFindPos ops m s pos)
  | 0, _, _, _, _ => Approx.none _
  | n + 1, 0, _, _, h => absurd h (Nat.not_succ_le_zero n)
  | n + 1, m + 1, s, pos, h => by
    have hle := Nat.le_of_succ_le_succ h
    simp only [streamFindPos]
    refine Approx.bind (streamFillBuffer_mono ops _ hle) fun r => ?_
    exact Approx.ite (Approx.ite (Approx.refl _) (streamFindPos_mono ops _ _ hle)) (Approx.refl _)

theorem streamSeek_mono (ops : StreamOps β) {n m : Nat} (s : Stream β) (pos : Int) (h : n ≤ m) :
    Approx (streamSeek ops n s pos) (streamSeek ops m s pos) := by
  refine Approx.ite (Approx.refl _) (Approx.ite (Approx.refl _) ?_)
  refine Approx.ite (Approx.refl _) (Approx.ite (Approx.refl _) ?_)
  exact Approx.bind (streamReadTo_mono ops _ _ h) fun _ => streamFindPos_mono ops _ _ h

theorem streamSkipLoop_mono (ops : StreamOps β) :
    ∀ {n m : Nat} (s : Stream β) (len : Int), n ≤ m →
      Approx (streamSkipLoop ops n s len) (streamSkipLoop ops m s len)
  | 0, _, _, _, _ => Approx.none _
  | n + 1, 0, _, _, h => absurd h (Nat.not_succ_le_zero n)
  | n + 1, m + 1, s, len, h => by
    have hle := Nat.le_of_succ_le_succ h
    simp only [streamSkipLoop]
    refine Approx.ite (Approx.bind (streamWindow_mono ops _ hle) fun w => ?_) (Approx.refl _)
    cases w.1 with
    | none => exact Approx.refl _
    | some x => exact streamSkipLoop_mono ops _ _ hle

theorem streamCall_mono (ops : StreamOps β) {n m : Nat} (s : Stream β) (call : StreamCall)
    (h : n ≤ m) : Approx (streamCall ops n s call) (streamCall ops m s call) := by
  cases call with
  | read total =>
    exact Approx.bind (streamReadLoop_mono ops s total h) fun _ => Approx.refl _
  | readChar =>
    refine Approx.map _ (Approx.ite (Approx.refl _) ?_)
    exact Approx.bind (streamFillBuffer_mono ops s h) fun _ => Approx.refl _
  | skip len =>
    exact Approx.map _ (Approx.ite (streamSeek_mono ops s _ h) (streamSkipLoop_mono ops s _ h))
  | seek pos => exact Approx.map _ (streamSeek_mono ops s pos h)

/-! ## What a call does -/

/-- What a call from `s` to `t` does, in terms of the file and the logical
position.  A skip that seeks needs a target that an `int64_t` has. -/
def CallCorrect (file : List UInt8) (s t : Stream β) (e : StreamEvent) : Prop :=
  match e.call with
  | .read total =>
    e.bytes = (file.drop (streamTell s).toNat).take total.toNat ∧
      streamTell t = streamTell s + e.bytes.length ∧ (0 ≤ total → e.ret = e.bytes.length)
  | .readChar =>
    (∃ b, file[(streamTell s).toNat]? = some b ∧ e.ret = b.toNat ∧
        streamTell t = streamTell s + 1) ∨
      ((file.length : Int) ≤ streamTell s ∧ e.ret = -256 ∧ streamTell t = streamTell s)
  | .skip len => (skipSeeks s len → InInt64 (streamTell s + len)) →
    (e.ret = 1 ∧ streamTell t = max 0 (streamTell s + len)) ∨
      (e.ret = 0 ∧ (file.length : Int) ≤ max 0 (streamTell s + len) ∧
        (¬ skipSeeks s len → streamTell t = max (streamTell s) file.length) ∧
        (skipSeeks s len → SeekFailed file s (streamTell s + len) (streamTell t)))
  | .seek pos =>
    (e.ret = 1 ∧ streamTell t = max 0 pos) ∨
      (e.ret = 0 ∧ (file.length : Int) ≤ max 0 pos ∧ SeekFailed file s pos (streamTell t))

/-- With enough fuel every call returns, keeps the window and does the right
thing. -/
theorem SeekableBackend.call (B : SeekableBackend ops type file offset) (fuel : Nat) {a : Nat}
    {s : Stream β} (call : StreamCall) (h : Window type file offset a s)
    (hf : file.length + fillFuel < fuel) :
    ∃ ret bytes t, streamCall ops fuel s call = some (ret, bytes, t) ∧
      (∃ a', Window type file offset a' t) ∧ CallCorrect file s t ⟨call, ret, bytes⟩ := by
  cases call with
  | read total =>
    obtain ⟨ret, bytes, t, a', heq, hw, hbytes, htell, hret⟩ := B.read total h hf
    refine ⟨ret, bytes, t, heq, ⟨a', hw⟩, ?_, ?_, hret⟩
    · rw [h.tell, Int.toNat_natCast]
      exact hbytes
    · rw [h.tell, hw.tell]
      simp only
      omega
  | readChar =>
    obtain ⟨ret, t, a', heq, hw, hres⟩ := B.readChar h hf
    refine ⟨ret, [], t, by rw [streamCall, heq]; rfl, ⟨a', hw⟩, ?_⟩
    simp only [CallCorrect, h.tell, hw.tell, Int.toNat_natCast]
    rcases hres with ⟨b, hb, hret, htell⟩ | ⟨hend, hret, htell⟩
    · exact Or.inl ⟨b, hb, hret, by omega⟩
    · exact Or.inr ⟨by omega, hret, by omega⟩
  | skip len =>
    obtain ⟨ret, t, a', heq, hw, hres⟩ := B.skip len h hf
    refine ⟨ret, [], t, by rw [streamCall, heq]; rfl, ⟨a', hw⟩, ?_⟩
    simp only [CallCorrect, h.tell, hw.tell]
    intro hfits
    rcases hres hfits with hok | ⟨hret, hend, hread, hfailed⟩
    · exact Or.inl hok
    · refine Or.inr ⟨hret, hend, fun hno => ?_, hfailed⟩
      have := hread hno
      omega
  | seek pos =>
    obtain ⟨ret, t, a', heq, hw, hres⟩ := B.seekTo pos h hf
    refine ⟨ret, [], t, by rw [streamCall, heq]; rfl, ⟨a', hw⟩, ?_⟩
    simp only [CallCorrect, hw.tell]
    exact hres

/-- A step keeps the window and does the right thing. -/
theorem SeekableBackend.step (B : SeekableBackend ops type file offset) {a : Nat}
    {s t : Stream β} {e : StreamEvent} (h : Window type file offset a s)
    (hst : StreamStep ops s e t) :
    (∃ a', Window type file offset a' t) ∧ CallCorrect file s t e := by
  refine Returns.of_large (P := fun r => (∃ a', Window type file offset a' r.2.2) ∧
    CallCorrect file s r.2.2 ⟨e.call, r.1, r.2.1⟩) hst (file.length + fillFuel + 1) ?_
  intro fuel hf
  obtain ⟨ret, bytes, t', heq, hw, hcorrect⟩ := B.call fuel e.call h hf
  exact ⟨_, heq, hw, hcorrect⟩

/-! ## Runs -/

/-- In every state a run of calls reaches, the valid part of the buffer is the
file up to `pos`, `buf_pos` is inside it, every call returns, and every call does
the right thing. -/
theorem stream_transparent (B : SeekableBackend ops type file offset) {s : Stream β}
    (hs : Reachable (StreamStep ops) (Fresh type offset) s) :
    (s.bufPos ≤ s.bufLen ∧ (s.bufLen : Int) ≤ s.pos ∧
        ∀ i < s.bufLen, file[(s.pos - s.bufLen).toNat + i]? = some (s.buffer i)) ∧
      (∀ call, ∃ ret bytes t, StreamStep ops s ⟨call, ret, bytes⟩ t) ∧
      ∀ e t, StreamStep ops s e t → CallCorrect file s t e := by
  obtain ⟨a, h⟩ : ∃ a, Window type file offset a s :=
    hs.invariant (I := fun s => ∃ a, Window type file offset a s)
      (fun _ h0 => ⟨_, h0.window⟩) (fun _ _ _ ⟨_, h⟩ hst => (B.step h hst).1)
  have hpos := h.pos_eq
  refine ⟨⟨h.bufPos_le, by omega, fun i hi => ?_⟩, fun call => ?_, fun e t hst => (B.step h hst).2⟩
  · have hcell := h.mirrors i hi
    rw [Nat.zero_add] at hcell
    rw [← hcell]
    congr 2
    omega
  · obtain ⟨ret, bytes, t, heq, -, -⟩ := B.call (file.length + fillFuel + 1) call h
      (Nat.lt_succ_self _)
    exact ⟨ret, bytes, t, Returns.of_mono (fun m hm => streamCall_mono ops s call hm) heq⟩

/-- The run of a stream on a three byte file. -/
theorem stream_transparent_file :
    (∀ call, ∃ ret bytes t, StreamStep (fileOps [10, 20, 30] 0) fileStream ⟨call, ret, bytes⟩ t) ∧
      ∀ e t, StreamStep (fileOps [10, 20, 30] 0) fileStream e t →
        CallCorrect [10, 20, 30] fileStream t e :=
  (stream_transparent (fileBackend [10, 20, 30] 0) (s := fileStream)
    ⟨fileStream, [], ⟨⟨rfl, rfl⟩, rfl, rfl⟩, .refl⟩).2

/-- A successful seek need not land on the position asked for: at minus one the
stream stays at zero.  A skip that fails need not stay or stop at the end of the file: over 8200
bytes of three the stream stands at 8192. -/
theorem streamSeek_clamps :
    (¬ ∀ s t pos, Reachable (StreamStep (fileOps [10, 20, 30] 0)) (Fresh .file id) s →
      StreamStep (fileOps [10, 20, 30] 0) s ⟨.seek pos, 1, []⟩ t → streamTell t = pos) ∧
      ¬ ∀ s t len, Reachable (StreamStep (fileOps [10, 20, 30] 0)) (Fresh .file id) s →
        StreamStep (fileOps [10, 20, 30] 0) s ⟨.skip len, 0, []⟩ t →
          streamTell t ≤ max (streamTell s) 3 := by
  have hopened : Reachable (StreamStep (fileOps [10, 20, 30] 0)) (Fresh .file id) fileStream :=
    ⟨fileStream, [], ⟨⟨rfl, rfl⟩, rfl, rfl⟩, .refl⟩
  refine ⟨fun h => ?_, fun h => ?_⟩
  · have htell := h fileStream fileStream (-1) hopened (Returns.of_forall 0 fun _ _ => rfl)
    exact absurd htell (by decide)
  · have htell := h fileStream { fileStream with pos := 8192, priv := 8192, eof := true } 8200
      hopened (Returns.of_forall 2 fun fuel hfuel => by
        obtain ⟨f, rfl⟩ := Nat.exists_eq_add_of_le' hfuel
        rfl)
    exact absurd htell (by decide)

end MPlayer
