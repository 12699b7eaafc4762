import MPlayer.Lib.Fuel
import MPlayer.Stream.Backend

/-!
# The window of the buffer

Over a seekable backend the buffer always holds a stretch of the file that ends
where the backend stands (`Window`).  Each function of the buffered stream is
described here by one lemma: with enough fuel it returns, the window is kept,
and the logical position moves as it should.
-/

namespace MPlayer

open Lib

variable {β : Type} {ops : StreamOps β} {type : StreamType} {file : List UInt8} {offset : β → Nat}

/-! ## The window -/

/-- The window starts at `a`, holds the file from there on, and ends where the
backend stands. -/
structure Window (type : StreamType) (file : List UInt8) (offset : β → Nat) (a : Nat)
    (s : Stream β) : Prop where
  type_eq : s.type = type
  pos_eq : s.pos = ((a + s.bufLen : Nat) : Int)
  offset_eq : offset s.priv = a + s.bufLen
  mirrors : Mirrors s.buffer 0 file a s.bufLen
  bufPos_le : s.bufPos ≤ s.bufLen

variable {a fuel : Nat} {s : Stream β}

theorem Window.synced (h : Window type file offset a s) : Synced type offset s :=
  ⟨h.type_eq, by rw [h.pos_eq, h.offset_eq]⟩

theorem Window.tell (h : Window type file offset a s) :
    streamTell s = ((a + s.bufPos : Nat) : Int) := by
  have := h.pos_eq
  unfold streamTell
  omega

/-- Reading forward inside the window. -/
theorem Window.advance (h : Window type file offset a s) {k : Nat} (hk : k ≤ s.bufLen) :
    Window type file offset a { s with bufPos := k } :=
  ⟨h.type_eq, h.pos_eq, h.offset_eq, h.mirrors, hk⟩

/-- An empty window at the position of the backend. -/
theorem Window.empty {e : Bool} {p : β} (ht : s.type = type) (hp : offset p = a) :
    Window type file offset a
      { s with bufPos := 0, bufLen := 0, pos := (a : Int), eof := e, priv := p } :=
  ⟨ht, rfl, hp, Mirrors.zero _ _ _ _, Nat.le_refl _⟩

/-! ## Filling the buffer -/

theorem SeekableBackend.topUp (B : SeekableBackend ops type file offset) :
    ∀ (fuel : Nat) {s : Stream β}, Window type file offset a s → streamBufferMin - s.bufLen < fuel →
      ∃ s', streamTopUp ops fuel s = some s' ∧ Window type file offset a s' ∧
        s'.bufPos = s.bufPos ∧ s.bufLen ≤ s'.bufLen
  | 0, _, _, hf => absurd hf (Nat.not_lt_zero _)
  | fuel + 1, s, h, hf => by
    by_cases hlt : s.bufLen < streamBufferMin
    · obtain ⟨k, hk⟩ : ∃ k, fuel = k + 1 := ⟨fuel - 1, by omega⟩
      obtain ⟨data, e, p, hread, hpre, -, hoff, -⟩ :=
        B.readInternal k h.synced (n := streamBufferMin) (by decide)
      have hw : Window type file offset a { s with
          buffer := blit s.buffer s.bufLen data, bufLen := s.bufLen + data.length, eof := e,
          pos := s.pos + data.length, priv := p } := by
        refine ⟨h.type_eq, ?_, ?_, ?_, Nat.le_trans h.bufPos_le (Nat.le_add_right _ _)⟩
        · simp only [h.pos_eq]
          omega
        · simp only [hoff, h.offset_eq]
          omega
        · have hd : data <+: file.drop (a + s.bufLen) := h.offset_eq ▸ hpre
          have hcells := h.mirrors.blit_append hd
          rw [Nat.zero_add] at hcells
          exact hcells
      rw [streamTopUp, if_pos hlt, hk, hread]
      simp only [Option.bind_eq_bind, Option.bind_some]
      by_cases hd : data = []
      · subst hd
        exact ⟨_, if_pos rfl, hw, rfl, Nat.le_refl _⟩
      · rw [if_neg hd]
        have hlen : 0 < data.length := List.length_pos_iff.mpr hd
        obtain ⟨s', hs', hw', hbp, hbl⟩ := B.topUp (k + 1) hw (by simp only; omega)
        exact ⟨s', hs', hw', hbp, Nat.le_trans (Nat.le_add_right _ _) hbl⟩
    · exact ⟨s, by rw [streamTopUp, if_neg hlt], h, rfl, Nat.le_refl _⟩

/-- The fuel that one refill needs. -/
def fillFuel : Nat := streamBufferMin + 2

/-- A refill either meets the end of the file and keeps the window, or gives a
nonempty window right behind the old one. -/
theorem SeekableBackend.fillBuffer (B : SeekableBackend ops type file offset) (fuel : Nat)
    (h : Window type file offset a s) (hf : fillFuel ≤ fuel) :
    ∃ n s', streamFillBuffer ops fuel s = some (n, s') ∧
      ((n = 0 ∧ file.length ≤ a + s.bufLen ∧ Window type file offset a s' ∧
          s'.bufPos = s.bufPos ∧ s'.bufLen = s.bufLen) ∨
        (n = s'.bufLen ∧ 0 < n ∧ Window type file offset (a + s.bufLen) s' ∧ s'.bufPos = 0)) := by
  obtain ⟨k, hk⟩ : ∃ k, fuel = k + 1 := ⟨fuel - 1, by unfold fillFuel at hf; omega⟩
  obtain ⟨data, e, p, hread, hpre, -, hoff, hend⟩ :=
    B.readInternal k h.synced (n := streamBufferSize) (by decide)
  rw [h.offset_eq] at hpre hoff hend
  rw [streamFillBuffer, hk, hread]
  simp only [Option.bind_eq_bind, Option.bind_some]
  by_cases hd : data = []
  · have hle := hend.mp hd
    subst hd
    rw [if_pos rfl]
    refine ⟨0, _, rfl, Or.inl ⟨rfl, hle, ?_, rfl, rfl⟩⟩
    refine ⟨h.type_eq, ?_, hoff, ?_, h.bufPos_le⟩
    · simp only [h.pos_eq, List.length_nil, Int.natCast_zero, Int.add_zero]
    · simp only [blit_nil]
      exact h.mirrors
  · rw [if_neg hd]
    have hlen : 0 < data.length := List.length_pos_iff.mpr hd
    have hw : Window type file offset (a + s.bufLen) { s with
        buffer := blit s.buffer 0 data, bufPos := 0, bufLen := data.length, eof := e,
        pos := s.pos + data.length, priv := p } := by
      refine ⟨h.type_eq, ?_, hoff, ?_, Nat.zero_le _⟩
      · simp only [h.pos_eq]
        omega
      · have hd : data <+: file.drop (a + s.bufLen + 0) := hpre
        have hcells := (Mirrors.zero s.buffer 0 file (a + s.bufLen)).blit_append hd
        rw [Nat.zero_add, Nat.zero_add] at hcells
        exact hcells
    obtain ⟨s', hs', hw', hbp, hbl⟩ := B.topUp (k + 1) hw (by
      unfold fillFuel at hf
      omega)
    rw [hs']
    refine ⟨s'.bufLen, _, rfl, Or.inr ⟨rfl, Nat.lt_of_lt_of_le hlen hbl, ?_, hbp⟩⟩
    exact ⟨hw'.type_eq, hw'.pos_eq, hw'.offset_eq, hw'.mirrors, hw'.bufPos_le⟩

/-- The window of an iteration of a read or a skip: at the end of the file there
is none, and else it is not empty and starts at the same logical position. -/
theorem SeekableBackend.window (B : SeekableBackend ops type file offset) (fuel : Nat)
    (h : Window type file offset a s) (hf : fillFuel ≤ fuel) :
    ∃ w s', streamWindow ops fuel s = some (w, s') ∧
      ((w = none ∧ file.length ≤ a + s.bufPos ∧ Window type file offset a s' ∧
          s'.bufPos = s.bufPos) ∨
        ∃ a', w = some ((s'.bufLen : Int) - s'.bufPos) ∧ Window type file offset a' s' ∧
          a' + s'.bufPos = a + s.bufPos ∧ s'.bufPos < s'.bufLen) := by
  have hle := h.bufPos_le
  by_cases hx : (s.bufLen : Int) - s.bufPos = 0
  · obtain ⟨n, s', hfill, hcase⟩ := B.fillBuffer fuel h hf
    rw [streamWindow, if_pos hx, hfill]
    simp only [Option.bind_eq_bind, Option.bind_some]
    rcases hcase with ⟨hn, hend, hw, hbp, -⟩ | ⟨hn, hpos, hw, hbp⟩
    · rw [if_pos hn]
      exact ⟨none, s', rfl, Or.inl ⟨rfl, by omega, hw, hbp⟩⟩
    · rw [if_neg (by omega)]
      exact ⟨_, s', rfl, Or.inr ⟨_, rfl, hw, by omega, by omega⟩⟩
  · rw [streamWindow, if_neg hx]
    exact ⟨_, s, rfl, Or.inr ⟨a, rfl, h, rfl, by omega⟩⟩

/-! ## Reading -/

/-- The unread part of the window is the file from the logical position on. -/
theorem Window.bytes (h : Window type file offset a s) {x : Nat} (hx : s.bufPos + x ≤ s.bufLen) :
    streamBytes s x = (file.drop (a + s.bufPos)).take x := by
  have := h.mirrors.slice hx
  simp only [Nat.zero_add] at this
  exact this

/-- A nonempty window lies inside the file. -/
theorem Window.tell_lt (h : Window type file offset a s) (hlt : s.bufPos < s.bufLen) :
    a + s.bufLen ≤ file.length :=
  h.mirrors.le_length (by omega)

theorem SeekableBackend.readLoop (B : SeekableBackend ops type file offset) :
    ∀ (fuel : Nat) {a : Nat} {s : Stream β} (len : Int), Window type file offset a s →
      file.length - (a + s.bufPos) + fillFuel < fuel →
      ∃ bytes stop s' a', streamReadLoop ops fuel s len = some (bytes, stop, s') ∧
        Window type file offset a' s' ∧ bytes = (file.drop (a + s.bufPos)).take len.toNat ∧
        a' + s'.bufPos = a + s.bufPos + bytes.length ∧
        (stop = false → bytes.length = len.toNat)
  | 0, _, _, _, _, hf => absurd hf (Nat.not_lt_zero _)
  | fuel + 1, a, s, len, h, hf => by
    by_cases hlen : 0 < len
    · obtain ⟨w, s1, hwin, hcase⟩ := B.window fuel h (by omega)
      rw [streamReadLoop, if_pos hlen, hwin]
      simp only [Option.bind_eq_bind, Option.bind_some]
      rcases hcase with ⟨hw, hend, hwd, hbp⟩ | ⟨a1, hw, hwd, htell, hlt⟩
      · subst hw
        refine ⟨[], true, s1, a, rfl, hwd, ?_, by simp [hbp], by simp⟩
        rw [List.drop_of_length_le hend, List.take_nil]
      · subst hw
        have hin := hwd.tell_lt hlt
        obtain ⟨x, hx⟩ : ∃ x : Nat, min ((s1.bufLen : Int) - s1.bufPos) len = x :=
          ⟨(min ((s1.bufLen : Int) - s1.bufPos) len).toNat, by omega⟩
        simp only [hx]
        have hadv : ((s1.bufPos : Int) + x).toNat = s1.bufPos + x := by omega
        rw [hadv]
        obtain ⟨bytes, stop, s', a', hloop, hwd', hbytes, htell', hstop⟩ :=
          B.readLoop fuel (len - x)
            (hwd.advance (k := s1.bufPos + x) (by omega)) (by simp only; omega)
        rw [hloop]
        have hchunk : streamBytes s1 x = (file.drop (a + s.bufPos)).take x := by
          rw [hwd.bytes (by omega), htell]
        have hchunkLen : (streamBytes s1 x).length = x := by simp [streamBytes]
        have hrest : (len - x).toNat = len.toNat - x := by omega
        have hsum : len.toNat = x + (len.toNat - x) := by omega
        refine ⟨_, stop, s', a', rfl, hwd', ?_, ?_, ?_⟩
        · simp only [Int.toNat_natCast]
          rw [hchunk, hbytes, hrest, hsum, List.take_add, List.drop_drop, Nat.add_sub_cancel_left]
          simp only
          rw [← Nat.add_assoc, htell]
        · simp only [Int.toNat_natCast, List.length_append, hchunkLen] at htell' ⊢
          omega
        · intro hs
          have hrem := hstop hs
          simp only [Int.toNat_natCast, List.length_append, hchunkLen]
          omega
    · refine ⟨[], false, s, a, by rw [streamReadLoop, if_neg hlen], h, ?_, by simp, ?_⟩
      · have : len.toNat = 0 := by omega
        rw [this, List.take_zero]
      · intro _
        have : len.toNat = 0 := by omega
        rw [this]
        rfl

/-- `stream_read` delivers the file from the logical position on. -/
theorem SeekableBackend.read (B : SeekableBackend ops type file offset) {fuel a : Nat}
    {s : Stream β} (total : Int) (h : Window type file offset a s)
    (hf : file.length + fillFuel < fuel) :
    ∃ ret bytes s' a', streamRead ops fuel s total = some (ret, bytes, s') ∧
      Window type file offset a' s' ∧ bytes = (file.drop (a + s.bufPos)).take total.toNat ∧
      a' + s'.bufPos = a + s.bufPos + bytes.length ∧ (0 ≤ total → ret = bytes.length) := by
  obtain ⟨bytes, stop, s', a', hloop, hwd, hbytes, htell, hstop⟩ :=
    B.readLoop fuel total h (by omega)
  refine ⟨if stop then bytes.length else total, bytes, s', a', ?_, hwd, hbytes, htell, ?_⟩
  · rw [streamRead, hloop]
    rfl
  · intro htotal
    cases stop with
    | true => rfl
    | false =>
      have hlen := hstop rfl
      simp only [Bool.false_eq_true, if_false]
      omega

/-- `stream_read_char` delivers the byte at the logical position, or `-256` at the
end. -/
theorem SeekableBackend.readChar (B : SeekableBackend ops type file offset)
    (h : Window type file offset a s) (hf : file.length + fillFuel < fuel) :
    ∃ ret s' a', streamReadChar ops fuel s = some (ret, s') ∧ Window type file offset a' s' ∧
      ((∃ b, file[a + s.bufPos]? = some b ∧ ret = b.toNat ∧ a' + s'.bufPos = a + s.bufPos + 1) ∨
        (file.length ≤ a + s.bufPos ∧ ret = -256 ∧ a' + s'.bufPos = a + s.bufPos)) := by
  by_cases hlt : s.bufPos < s.bufLen
  · have hcell := h.mirrors s.bufPos hlt
    rw [Nat.zero_add] at hcell
    exact ⟨_, _, a, by rw [streamReadChar, if_pos hlt], h.advance hlt,
      Or.inl ⟨_, hcell, rfl, rfl⟩⟩
  · have hle := h.bufPos_le
    obtain ⟨n, s', hfill, hcase⟩ := B.fillBuffer fuel h (by omega)
    rw [streamReadChar, if_neg hlt, hfill]
    simp only [Option.bind_eq_bind, Option.bind_some]
    rcases hcase with ⟨hn, hend, hw, hbp, -⟩ | ⟨hn, hpos, hw, hbp⟩
    · rw [if_pos hn]
      exact ⟨_, _, a, rfl, hw, Or.inr ⟨by omega, rfl, by omega⟩⟩
    · rw [if_neg (by omega)]
      have hcell := hw.mirrors 0 (by omega)
      refine ⟨_, _, a + s.bufLen, rfl, hw.advance (by omega), Or.inl ⟨s'.buffer 0, ?_, ?_, ?_⟩⟩
      · rw [← hcell]
        congr 1
        omega
      · simp only [hbp]
      · simp only [hbp]
        omega

/-! ## Seeking -/

/-- The loop that looks for the window with the target finds it, unless the file
ends before.  Then it stays at the last window. -/
theorem SeekableBackend.findPos (B : SeekableBackend ops type file offset) :
    ∀ (fuel : Nat) {a : Nat} {s : Stream β} (pos : Nat), Window type file offset a s →
      file.length - (a + s.bufLen) + fillFuel < fuel →
      ∃ ret s' a', streamFindPos ops fuel s pos = some (ret, s') ∧ Window type file offset a' s' ∧
        ((ret = 1 ∧ a' + s'.bufPos = a + s.bufLen + pos) ∨
          (ret = 0 ∧ file.length ≤ a + s.bufLen + pos ∧ a + s.bufPos ≤ a' + s'.bufPos ∧
            a' + s'.bufPos ≤ max (a + s.bufPos) file.length))
  | 0, _, _, _, _, hf => absurd hf (Nat.not_lt_zero _)
  | fuel + 1, a, s, pos, h, hf => by
    obtain ⟨n, s1, hfill, hcase⟩ := B.fillBuffer fuel h (by omega)
    rw [streamFindPos, hfill]
    simp only [Option.bind_eq_bind, Option.bind_some]
    rcases hcase with ⟨hn, hend, hw, hbp, -⟩ | ⟨hn, hpos, hw, hbp⟩
    · rw [if_neg (by omega)]
      exact ⟨0, s1, a, rfl, hw, Or.inr ⟨rfl, by omega, by omega, by omega⟩⟩
    · rw [if_pos ⟨hpos, by omega⟩]
      have hin := hw.mirrors.le_length (by omega)
      by_cases hle : (pos : Int) ≤ s1.bufLen
      · rw [if_pos hle]
        exact ⟨1, _, a + s.bufLen, rfl, hw.advance (by omega), Or.inl ⟨rfl, by simp⟩⟩
      · rw [if_neg hle]
        have hrest : (pos : Int) - s1.bufLen = ((pos - s1.bufLen : Nat) : Int) := by omega
        rw [hrest]
        obtain ⟨ret, s', a', hfind, hw', hres⟩ :=
          B.findPos fuel (pos - s1.bufLen) hw (by omega)
        have hsum : a + s.bufLen + s1.bufLen + (pos - s1.bufLen) = a + s.bufLen + pos := by
          omega
        rw [hsum] at hres
        have hle := h.bufPos_le
        refine ⟨ret, s', a', hfind, hw', hres.imp id ?_⟩
        rintro ⟨hret, hend, hlo, hhi⟩
        exact ⟨hret, hend, by omega, by omega⟩

/-- The source is asked for a position no later than the target. -/
theorem streamAlign_spec (s : Stream β) (pos : Nat) :
    ∃ q : Nat, streamAlign s pos = q ∧ q ≤ pos := by
  unfold streamAlign
  split
  · refine ⟨pos / s.sectorSize * s.sectorSize, ?_, Nat.div_mul_le_self _ _⟩
    rw [Int.tdiv_eq_ediv_of_nonneg (Int.natCast_nonneg _)]
    simp
  · refine ⟨pos / streamBufferSize * streamBufferSize, ?_, Nat.div_mul_le_self _ _⟩
    simp

theorem SeekableBackend.seekLong (B : SeekableBackend ops type file offset) (pos : Nat)
    (h : Window type file offset a s) (hf : file.length + fillFuel < fuel) :
    ∃ ret s' a', streamSeekLong ops fuel s pos = some (ret, s') ∧ Window type file offset a' s' ∧
      ((ret = 1 ∧ a' + s'.bufPos = pos) ∨
        (ret = 0 ∧ file.length ≤ pos ∧ streamAlign s pos ≤ (a' + s'.bufPos : Nat) ∧
          ((a' + s'.bufPos : Nat) : Int) ≤ max (streamAlign s pos) file.length)) := by
  by_cases hm : s.mode = .write
  · obtain ⟨e, p, hseek, hp⟩ := B.seek_exact { s with bufPos := 0, bufLen := 0 } pos
    rw [streamSeekLong, if_pos hm, B.seek_eq]
    simp only [hseek, if_true]
    exact ⟨1, _, pos, rfl, Window.empty h.type_eq hp, Or.inl ⟨rfl, rfl⟩⟩
  · obtain ⟨q, hq, hle⟩ := streamAlign_spec { s with bufPos := 0, bufLen := 0 } pos
    obtain ⟨e, p, hseek, hp⟩ := B.seekInternal (s := { s with bufPos := 0, bufLen := 0 })
      ⟨h.type_eq, h.synced.pos_eq⟩ q
    obtain ⟨k, hk⟩ : ∃ k, fuel = k + 1 := ⟨fuel - 1, by omega⟩
    simp only [streamSeekLong, hm, if_false, hq, hseek]
    rw [if_neg (by decide), hk, streamReadTo, if_neg (by simp)]
    simp only [Option.bind_eq_bind, Option.bind_some]
    have hrest : (pos : Int) - q = ((pos - q : Nat) : Int) := by omega
    rw [hrest]
    obtain ⟨ret, s', a', hfind, hw, hres⟩ :=
      B.findPos (k + 1) (pos - q) (Window.empty (e := e) h.type_eq hp) (by simp only; omega)
    simp only [Nat.add_zero, Nat.add_sub_cancel' hle] at hres
    refine ⟨ret, s', a', hfind, hw, hres.imp id ?_⟩
    rintro ⟨hret, hend, hlo, hhi⟩
    have hq' : streamAlign s pos = q := hq
    exact ⟨hret, hend, by omega, by omega⟩

/-- A seek to a position inside the file succeeds.  One that succeeds lands on the
position, or on zero for a negative one.  One that fails stays where the source was
asked to go, or where the file ended behind it. -/
theorem SeekableBackend.seekTo (B : SeekableBackend ops type file offset) (pos : Int)
    (h : Window type file offset a s) (hf : file.length + fillFuel < fuel) :
    ∃ ret s' a', streamSeek ops fuel s pos = some (ret, s') ∧ Window type file offset a' s' ∧
      ((ret = 1 ∧ ((a' + s'.bufPos : Nat) : Int) = max 0 pos) ∨
        (ret = 0 ∧ (file.length : Int) ≤ max 0 pos ∧
          streamAlign s (max 0 pos) ≤ (a' + s'.bufPos : Nat) ∧
          ((a' + s'.bufPos : Nat) : Int) ≤ max (streamAlign s (max 0 pos)) file.length)) := by
  obtain ⟨p, hp⟩ : ∃ p : Nat, (if pos < 0 then 0 else pos) = (p : Int) := by
    refine ⟨pos.toNat, ?_⟩
    split <;> omega
  have hmax : max 0 pos = (p : Int) := by
    split at hp <;> omega
  have hposeq := h.pos_eq
  have hle := h.bufPos_le
  simp only [streamSeek, hp, hmax]
  by_cases hhere : s.bufLen = 0 ∧ s.pos = p
  · rw [if_pos hhere]
    exact ⟨1, s, a, rfl, h, Or.inl ⟨rfl, by omega⟩⟩
  · rw [if_neg hhere]
    by_cases hin : (p : Int) < s.pos ∧ 0 ≤ (p : Int) - (s.pos - s.bufLen)
    · rw [if_pos hin]
      refine ⟨1, _, a, rfl, h.advance (by omega), Or.inl ⟨rfl, ?_⟩⟩
      simp only
      omega
    · rw [if_neg hin]
      obtain ⟨ret, s', a', hseek, hw, hres⟩ := B.seekLong p h hf
      refine ⟨ret, s', a', hseek, hw, ?_⟩
      rcases hres with ⟨hret, htell⟩ | ⟨hret, hend, hbounds⟩
      · exact Or.inl ⟨hret, by rw [htell]⟩
      · exact Or.inr ⟨hret, by omega, hbounds⟩

/-- Skipping forward by reading stops at the target or at the end of the file. -/
theorem SeekableBackend.skipLoop (B : SeekableBackend ops type file offset) :
    ∀ (fuel : Nat) {a : Nat} {s : Stream β} (len : Int), Window type file offset a s →
      file.length - (a + s.bufPos) + fillFuel < fuel →
      ∃ ret s' a', streamSkipLoop ops fuel s len = some (ret, s') ∧ Window type file offset a' s' ∧
        ((ret = 1 ∧ a' + s'.bufPos = a + s.bufPos + len.toNat) ∨
          (ret = 0 ∧ a' + s'.bufPos = max (a + s.bufPos) file.length ∧
            a' + s'.bufPos < a + s.bufPos + len.toNat))
  | 0, _, _, _, _, hf => absurd hf (Nat.not_lt_zero _)
  | fuel + 1, a, s, len, h, hf => by
    by_cases hlen : 0 < len
    · obtain ⟨w, s1, hwin, hcase⟩ := B.window fuel h (by omega)
      rw [streamSkipLoop, if_pos hlen, hwin]
      simp only [Option.bind_eq_bind, Option.bind_some]
      rcases hcase with ⟨hw, hend, hwd, hbp⟩ | ⟨a1, hw, hwd, htell, hlt⟩
      · subst hw
        exact ⟨0, s1, a, rfl, hwd, Or.inr ⟨rfl, by omega, by omega⟩⟩
      · subst hw
        have hin := hwd.tell_lt hlt
        obtain ⟨x, hx⟩ : ∃ x : Nat, min ((s1.bufLen : Int) - s1.bufPos) len = x :=
          ⟨(min ((s1.bufLen : Int) - s1.bufPos) len).toNat, by omega⟩
        simp only [hx]
        have hadv : ((s1.bufPos : Int) + x).toNat = s1.bufPos + x := by omega
        rw [hadv]
        obtain ⟨ret, s', a', hloop, hwd', hres⟩ :=
          B.skipLoop fuel (len - x)
            (hwd.advance (k := s1.bufPos + x) (by omega)) (by simp only; omega)
        refine ⟨ret, s', a', hloop, hwd', ?_⟩
        simp only at hres
        rcases hres with ⟨hret, htell'⟩ | ⟨hret, htell', hlt'⟩
        · exact Or.inl ⟨hret, by omega⟩
        · exact Or.inr ⟨hret, by omega, by omega⟩
    · exact ⟨1, s, a, by rw [streamSkipLoop, if_neg hlen], h, Or.inl ⟨rfl, by omega⟩⟩

/-- A number that an `int64_t` has. -/
def InInt64 (n : Int) : Prop := -0x8000000000000000 ≤ n ∧ n < 0x8000000000000000

/-- Where a seek that fails leaves the reader: between the position that the source was asked for
and the end of the file, if that is behind it. -/
def SeekFailed (file : List UInt8) (s : Stream β) (pos tell : Int) : Prop :=
  streamAlign s (max 0 pos) ≤ tell ∧ tell ≤ max (streamAlign s (max 0 pos)) file.length

/-- `stream_skip` seeks instead of reading: backward, and over long distances. -/
def skipSeeks (s : Stream β) (len : Int) : Prop :=
  len < 0 ∨ (2 * (streamBufferSize : Int) < len ∧ s.seekFw)

/-- A skip that succeeds moves the reader by `len`, or to zero if that is negative.
One that fails by reading has read to the end, and one that fails by seeking stays as
a seek does. -/
theorem SeekableBackend.skip (B : SeekableBackend ops type file offset) {fuel a : Nat}
    {s : Stream β} (len : Int) (h : Window type file offset a s)
    (hf : file.length + fillFuel < fuel) :
    ∃ ret s' a', streamSkip ops fuel s len = some (ret, s') ∧ Window type file offset a' s' ∧
      ((skipSeeks s len → InInt64 ((a + s.bufPos : Nat) + len)) →
        (ret = 1 ∧ ((a' + s'.bufPos : Nat) : Int) = max 0 ((a + s.bufPos : Nat) + len)) ∨
        (ret = 0 ∧ (file.length : Int) ≤ max 0 ((a + s.bufPos : Nat) + len) ∧
          (¬ skipSeeks s len → a' + s'.bufPos = max (a + s.bufPos) file.length) ∧
          (skipSeeks s len →
            SeekFailed file s ((a + s.bufPos : Nat) + len) (a' + s'.bufPos : Nat)))) := by
  by_cases hseek : skipSeeks s len
  · have heqn : streamSkip ops fuel s len =
        streamSeek ops fuel s (Int.bmod (streamTell s + len) 0x10000000000000000) := if_pos hseek
    rw [heqn, h.tell]
    obtain ⟨ret, s', a', heq, hw, hres⟩ :=
      B.seekTo (Int.bmod ((a + s.bufPos : Nat) + len) 0x10000000000000000) h hf
    refine ⟨ret, s', a', heq, hw, fun hfits => ?_⟩
    obtain ⟨hlo, hhi⟩ := hfits hseek
    rw [Int.bmod_eq_of_le (by omega) (by omega)] at hres
    rcases hres with hok | ⟨hret, hend, hbounds⟩
    · exact Or.inl hok
    · exact Or.inr ⟨hret, hend, fun hno => absurd hseek hno, fun _ => hbounds⟩
  · have heqn : streamSkip ops fuel s len = streamSkipLoop ops fuel s len := if_neg hseek
    rw [heqn]
    obtain ⟨ret, s', a', hloop, hw, hres⟩ := B.skipLoop fuel len h (by omega)
    have hlen : 0 ≤ len := by
      unfold skipSeeks at hseek
      omega
    refine ⟨ret, s', a', hloop, hw, fun _ => ?_⟩
    rcases hres with ⟨hret, htell⟩ | ⟨hret, htell, hlt⟩
    · exact Or.inl ⟨hret, by omega⟩
    · exact Or.inr ⟨hret, by omega, fun _ => htell, fun h => absurd h hseek⟩

end MPlayer
