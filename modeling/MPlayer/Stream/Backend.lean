import MPlayer.Stream.Basic

/-!
# Backends that deliver a file

A backend stands at an *offset* of a file.  `InOrderBackend` says that each read
delivers a stretch of the file from the offset on, of any length up to the one
asked for, and that seeks succeed.  `SeekableBackend` adds that a read delivers
nothing only at the end of the file, where it sets `eof`.

Both give `stream_read_internal` a short description.  Over any in-order backend
it delivers a stretch of the file and moves `pos` by the stretch's length.  Over
a seekable one it also leaves the buffer fields alone, since it never
reconnects.
-/

namespace MPlayer

open Lib

variable {β : Type}

/-! ## Contracts -/

/-- A backend that delivers `file` in order and whose seeks succeed.  A read may
deliver nothing anywhere. -/
structure InOrderBackend (ops : StreamOps β) (type : StreamType) (file : List UInt8)
    (offset : β → Nat) where
  fill : Stream β → Nat → List UInt8 × Stream β
  seek : Stream β → Int → Bool × Stream β
  fillBuffer_eq : ops.fillBuffer = some fill
  seek_eq : ops.seek = some seek
  not_ds : type ≠ .ds
  /-- A network stream uses these callbacks when it has no `streaming_read`. -/
  networking : type = .stream → ops.configNetworking = true ∧ ops.streamingRead = none
  /-- Reading changes no field but `eof`. -/
  fill_frame : ∀ s n, ∃ e p, (fill s n).2 = { s with eof := e, priv := p }
  fill_prefix : ∀ s n, (fill s n).1 <+: file.drop (offset s.priv)
  fill_length : ∀ s n, (fill s n).1.length ≤ n
  fill_offset : ∀ s n, offset (fill s n).2.priv = offset s.priv + (fill s n).1.length
  /-- Seeking succeeds and sets `pos`. -/
  seek_exact : ∀ s (newpos : Nat), ∃ e p,
    seek s newpos = (true, { s with pos := newpos, eof := e, priv := p }) ∧ offset p = newpos
  /-- `STREAM_CTRL_RESET` does not move the backend. -/
  reset_frame : ∀ control, ops.controlReset = some control → ∀ s, ∃ p,
    control s = { s with priv := p } ∧ offset p = offset s.priv

/-- A backend that delivers `file` in order and delivers nothing only at its end. -/
structure SeekableBackend (ops : StreamOps β) (type : StreamType) (file : List UInt8)
    (offset : β → Nat) extends InOrderBackend ops type file offset where
  fill_delivers : ∀ s n, 0 < n → offset s.priv < file.length → (fill s n).1 ≠ []
  fill_eof : ∀ s n, 0 < n → file.length ≤ offset s.priv → (fill s n).2.eof = true

/-- The stream stands where its backend does. -/
structure Synced (type : StreamType) (offset : β → Nat) (s : Stream β) : Prop where
  type_eq : s.type = type
  pos_eq : s.pos = offset s.priv

variable {ops : StreamOps β} {type : StreamType} {file : List UInt8} {offset : β → Nat}

/-! ## Single callbacks -/

variable {s : Stream β}

theorem InOrderBackend.readCallback_eq (B : InOrderBackend ops type file offset)
    (h : s.type = type) (n : Nat) : streamReadCallback ops s n = B.fill s n := by
  unfold streamReadCallback
  split
  next hs =>
    obtain ⟨hnet, hread⟩ := B.networking (h.symm.trans hs)
    rw [hnet, hread, B.fillBuffer_eq]
  next hs => exact absurd (h.symm.trans hs) B.not_ds
  next => rw [B.fillBuffer_eq]

theorem InOrderBackend.seekInternal_eq (B : InOrderBackend ops type file offset)
    (h : s.type = type) (newpos : Int) :
    streamSeekInternal ops s newpos =
      if newpos = 0 ∨ newpos ≠ s.pos then callSeek B.seek s newpos else (-1, s) := by
  unfold streamSeekInternal
  rw [B.seek_eq]
  by_cases hs : s.type = .stream
  · rw [(B.networking (h.symm.trans hs)).1]
    simp only [hs, if_true]
  · simp only [hs, if_false]

/-- `stream_seek_internal` over an in-order backend: the stream stands at
`newpos`. -/
theorem InOrderBackend.seekInternal (B : InOrderBackend ops type file offset)
    (h : Synced type offset s) (newpos : Nat) :
    ∃ e p, streamSeekInternal ops s newpos = (-1, { s with pos := newpos, eof := e, priv := p }) ∧
      offset p = newpos := by
  rw [B.seekInternal_eq h.type_eq]
  by_cases hc : (newpos : Int) = 0 ∨ (newpos : Int) ≠ s.pos
  · obtain ⟨e, p, hseek, hp⟩ := B.seek_exact s newpos
    refine ⟨e, p, ?_, hp⟩
    rw [if_pos hc, callSeek, hseek]
    rfl
  · rw [if_neg hc]
    have hpos : s.pos = newpos := by omega
    refine ⟨s.eof, s.priv, ?_, ?_⟩
    · rw [← hpos]
    · have := h.pos_eq
      omega

theorem InOrderBackend.callReset_eq (B : InOrderBackend ops type file offset) (s : Stream β) :
    ∃ p, callReset ops s = { s with priv := p } ∧ offset p = offset s.priv := by
  unfold callReset
  cases hc : ops.controlReset with
  | none => exact ⟨s.priv, rfl, rfl⟩
  | some control => exact B.reset_frame control hc s

/-- `stream_reset` over an in-order backend moves nothing. -/
theorem InOrderBackend.reset (B : InOrderBackend ops type file offset) (h : Synced type offset s) :
    Synced type offset (streamReset ops s) ∧ (streamReset ops s).pos = s.pos ∧
      (streamReset ops s).readChunk = s.readChunk := by
  cases he : s.eof with
  | false =>
    obtain ⟨p, hp, hoff⟩ := B.callReset_eq s
    have heq : streamReset ops s = { s with priv := p } := by simp [streamReset, he, hp]
    rw [heq]
    exact ⟨⟨h.type_eq, h.pos_eq.trans (by rw [hoff])⟩, rfl, rfl⟩
  | true =>
    obtain ⟨p, hp, hoff⟩ := B.callReset_eq { s with bufPos := 0, bufLen := 0, eof := false }
    have heq : streamReset ops s
        = { s with bufPos := 0, bufLen := 0, eof := false, priv := p } := by
      simp [streamReset, he, hp]
    rw [heq]
    exact ⟨⟨h.type_eq, h.pos_eq.trans (by rw [hoff])⟩, rfl, rfl⟩

/-! ## `stream_read_internal` -/

/-- A reconnect over an in-order backend succeeds at once and moves nothing. -/
theorem InOrderBackend.reconnect (B : InOrderBackend ops type file offset)
    (h : Synced type offset s) :
    ∃ s', streamReconnect ops s = (true, s') ∧ Synced type offset s' ∧ s'.pos = s.pos ∧
      s'.readChunk = s.readChunk := by
  obtain ⟨hsync, hpos, hchunk⟩ := B.reset (s := { s with eof := true }) ⟨h.type_eq, h.pos_eq⟩
  obtain ⟨e, p, hseek, hp⟩ := B.seekInternal hsync (offset s.priv)
  rw [← h.pos_eq] at hseek
  refine ⟨{ streamReset ops { s with eof := true } with pos := s.pos, eof := e, priv := p },
    ?_, ⟨hsync.type_eq, h.pos_eq.trans (by rw [hp])⟩, rfl, hchunk⟩
  simp only [streamReconnect, maxReconnectRetries, streamReconnectLoop, hseek]
  simp

/-- Over an in-order backend `stream_read_internal` delivers a stretch of the
file from `pos` on and moves `pos` behind it. -/
theorem InOrderBackend.readInternal (B : InOrderBackend ops type file offset) :
    ∀ {fuel : Nat} {s s' : Stream β} {n : Nat} {data : List UInt8}, Synced type offset s →
      streamReadInternal ops fuel s n = some (data, s') →
      data <+: file.drop (offset s.priv) ∧ data.length ≤ n ∧ Synced type offset s' ∧
        s'.pos = s.pos + data.length ∧ s'.readChunk = s.readChunk
  | 0, _, _, _, _, _, hr => by cases hr
  | fuel + 1, s, s', n, data, h, hr => by
    obtain ⟨e, p, hframe⟩ := B.fill_frame s n
    have hoff : offset p = offset s.priv + (B.fill s n).1.length := by
      have := B.fill_offset s n
      rw [hframe] at this
      exact this
    have hsync : Synced type offset
        { s with eof := e, pos := s.pos + (B.fill s n).1.length, priv := p } := by
      refine ⟨h.type_eq, ?_⟩
      show s.pos + ((B.fill s n).1.length : Int) = (offset p : Int)
      have := h.pos_eq
      omega
    simp only [streamReadInternal, B.readCallback_eq h.type_eq, hframe] at hr
    by_cases hd : (B.fill s n).1 = []
    · simp only [hd, List.length_nil, Int.natCast_zero, Int.add_zero] at hsync
      rw [if_pos hd] at hr
      split at hr
      · cases hr
        exact ⟨List.nil_prefix, Nat.zero_le _, ⟨hsync.type_eq, hsync.pos_eq⟩, by simp, rfl⟩
      · obtain ⟨s1, hrec, hs1, hpos1, hchunk1⟩ := B.reconnect hsync
        rw [hrec] at hr
        simp only [if_true] at hr
        obtain ⟨h1, h2, h3, h4, h5⟩ :=
          B.readInternal (s := { s1 with eof := true }) ⟨hs1.type_eq, hs1.pos_eq⟩ hr
        refine ⟨?_, h2, h3, ?_, h5.trans hchunk1⟩
        · have ho : offset s1.priv = offset s.priv := by
            have := hs1.pos_eq
            have := h.pos_eq
            simp only at hpos1
            omega
          rw [← ho]
          exact h1
        · rw [h4]
          simp only [hpos1]
    · rw [if_neg hd] at hr
      cases hr
      exact ⟨B.fill_prefix s n, B.fill_length s n, ⟨hsync.type_eq, hsync.pos_eq⟩, rfl, rfl⟩

/-- Over a seekable backend `stream_read_internal` needs one round, delivers
nothing only at the end, and changes `pos`, `eof` and the private state. -/
theorem SeekableBackend.readInternal (B : SeekableBackend ops type file offset) (fuel : Nat)
    (h : Synced type offset s) {n : Nat} (hn : 0 < n) :
    ∃ data e p, streamReadInternal ops (fuel + 1) s n
        = some (data, { s with eof := e, pos := s.pos + data.length, priv := p }) ∧
      data <+: file.drop (offset s.priv) ∧ data.length ≤ n ∧
      offset p = offset s.priv + data.length ∧
      (data = [] ↔ file.length ≤ offset s.priv) := by
  obtain ⟨e, p, hframe⟩ := B.fill_frame s n
  have hoff : offset p = offset s.priv + (B.fill s n).1.length := by
    have := B.fill_offset s n
    rw [hframe] at this
    exact this
  have hend : (B.fill s n).1 = [] ↔ file.length ≤ offset s.priv := by
    constructor
    · intro hd
      by_cases hlt : offset s.priv < file.length
      · exact absurd hd (B.fill_delivers s n hn hlt)
      · omega
    · intro hle
      have hpre := B.fill_prefix s n
      rw [List.drop_of_length_le hle] at hpre
      exact List.prefix_nil.mp hpre
  refine ⟨(B.fill s n).1, ?_⟩
  simp only [streamReadInternal, B.readCallback_eq h.type_eq, hframe]
  by_cases hd : (B.fill s n).1 = []
  · have heof : e = true := by
      have := B.fill_eof s n hn (hend.mp hd)
      rw [hframe] at this
      exact this
    refine ⟨true, p, ?_, B.fill_prefix s n, B.fill_length s n, hoff, hend⟩
    rw [if_pos hd, hd, heof]
    simp
  · refine ⟨false, p, ?_, B.fill_prefix s n, B.fill_length s n, hoff, hend⟩
    rw [if_neg hd]

/-! ## A file on disk -/

/-- The `fill_buffer` of `stream_file.c` on a system whose `read` delivers at most
`chunk + 1` bytes at once. -/
def fileFillBuffer (file : List UInt8) (chunk : Nat) (s : Stream Nat) (n : Nat) :
    List UInt8 × Stream Nat :=
  let data := (file.drop s.priv).take (min n (chunk + 1))
  (data, { s with eof := s.eof || (n ≠ 0 && data.isEmpty), priv := s.priv + data.length })

/-- The `seek` of `stream_file.c`. -/
def fileSeek (s : Stream Nat) (newpos : Int) : Bool × Stream Nat :=
  (true, { s with pos := newpos, priv := newpos.toNat })

/-- The callbacks of `stream_file.c`. -/
def fileOps (file : List UInt8) (chunk : Nat) : StreamOps Nat where
  configNetworking := false
  fillBuffer := some (fileFillBuffer file chunk)
  readFd := fun s _ => ([], s)
  demuxReadData := fun s _ => ([], s)
  seek := some fileSeek
  controlReset := none
  streamingRead := none
  streamingStopped := fun _ => false
  streamingSeek := none

/-- The file stream is a seekable backend for its file. -/
def fileBackend (file : List UInt8) (chunk : Nat) :
    SeekableBackend (fileOps file chunk) .file file id where
  fill := fileFillBuffer file chunk
  seek := fileSeek
  fillBuffer_eq := rfl
  seek_eq := rfl
  not_ds := by decide
  networking := fun h => by cases h
  fill_frame := fun _ _ => ⟨_, _, rfl⟩
  fill_prefix := fun _ _ => List.take_prefix _ _
  fill_length := fun _ _ => Nat.le_trans (List.length_take_le _ _) (Nat.min_le_left _ _)
  fill_offset := fun _ _ => rfl
  seek_exact := fun s _ => ⟨s.eof, _, rfl, rfl⟩
  reset_frame := fun _ h => by cases h
  fill_delivers := fun s n hn hlt h => by
    have hlen := congrArg List.length h
    simp only [fileFillBuffer, List.length_take, List.length_drop, List.length_nil, id] at hlen hlt
    omega
  fill_eof := fun s n hn hle => by
    have hnil : (file.drop s.priv) = [] := List.drop_of_length_le hle
    simp [fileFillBuffer, hnil]
    omega

/-- A stream opened on a file. -/
def fileStream : Stream Nat where
  type := .file
  seekFw := true
  sectorSize := 0
  readChunk := 0
  bufPos := 0
  bufLen := 0
  pos := 0
  endPos := 0
  eof := false
  mode := .read
  buffer := fun _ => 0
  priv := 0

end MPlayer
