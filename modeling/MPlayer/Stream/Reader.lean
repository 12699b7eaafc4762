import MPlayer.Stream.Window

/-!
# The stream as a demuxer sees it

A demuxer reads forward through `stream_read_char`, `stream_read` and `stream_skip`.  Over
a seekable backend all it can see of the stream is the position, the bytes behind it and
whether the end was met (`Reader`), and each of these calls is a function of that
(`Sees.readChar`, `Sees.read`, `Sees.skip`).
-/

namespace MPlayer

open Lib

variable {β : Type} {ops : StreamOps β} {type : StreamType} {file : List UInt8} {offset : β → Nat}

/-! ## The reader -/

/-- The position in a stream, the bytes from there on, and `stream->eof`. -/
structure Reader where
  pos : Nat
  rest : List UInt8
  eof : Bool
deriving DecidableEq

/-- A file that is read from its first byte on. -/
def Reader.start (file : List UInt8) : Reader := ⟨0, file, false⟩

/-- `stream_read_char`. -/
def Reader.readChar (r : Reader) : Int × Reader :=
  match r.rest with
  | [] => (-256, { r with eof := true })
  | b :: rest => (b.toNat, { r with pos := r.pos + 1, rest := rest })

/-- `stream_read`: the bytes that are copied, as many as are returned. -/
def Reader.read (r : Reader) (n : Nat) : List UInt8 × Reader :=
  (r.rest.take n, ⟨r.pos + min n r.rest.length, r.rest.drop n, r.eof || decide (r.rest.length < n)⟩)

/-- `stream_skip`. -/
def Reader.skip (r : Reader) (n : Nat) : Reader := (r.read n).2

/-- The reader `n` bytes further on. -/
def Reader.advance (r : Reader) (bytes rest : List UInt8) : Reader :=
  { r with pos := r.pos + bytes.length, rest := rest }

variable {r : Reader} {rest : List UInt8} {n fuel a : Nat} {s s' : Stream β}

theorem Reader.readChar_cons {b : UInt8} (h : r.rest = b :: rest) :
    r.readChar = ((b.toNat : Int), r.advance [b] rest) := by
  unfold Reader.readChar
  rw [h]
  rfl

theorem Reader.read_append {bytes : List UInt8} (h : r.rest = bytes ++ rest) :
    r.read bytes.length = (bytes, r.advance bytes rest) := by
  have hlen : ¬ bytes.length + rest.length < bytes.length := by omega
  simp only [Reader.read, Reader.advance, h, List.take_left, List.drop_left, List.length_append,
    decide_eq_false hlen, Bool.or_false, Nat.min_eq_left (Nat.le_add_right _ _)]

theorem Reader.skip_append {bytes : List UInt8} (h : r.rest = bytes ++ rest) :
    r.skip bytes.length = r.advance bytes rest := by
  rw [Reader.skip, Reader.read_append h]

theorem Reader.skip_skip (r : Reader) (n m : Nat) : (r.skip n).skip m = r.skip (n + m) := by
  simp only [Reader.skip, Reader.read, List.length_drop, List.drop_drop, Reader.mk.injEq, true_and]
  refine ⟨by omega, ?_⟩
  rw [Bool.or_assoc, ← Bool.decide_or]
  congr 2
  apply propext
  omega

theorem Reader.skip_of_short (h : r.rest.length < n) (m : Nat) : r.skip (n + m) = r.skip n := by
  have hdrop : r.rest.drop (n + m) = r.rest.drop n := by
    rw [List.drop_of_length_le (by omega), List.drop_of_length_le (by omega)]
  simp only [Reader.skip, Reader.read, hdrop, Reader.mk.injEq, true_and]
  refine ⟨by omega, ?_⟩
  rw [decide_eq_true (by omega : r.rest.length < n + m), decide_eq_true h]

theorem Reader.readChar_snd (r : Reader) : r.readChar.2 = r.skip 1 := by
  rw [Reader.readChar]
  cases h : r.rest with
  | nil => simp [Reader.skip, Reader.read, h]
  | cons b rest => simp [Reader.skip, Reader.read, h]

@[simp] theorem Reader.advance_rest (r : Reader) (bytes rest : List UInt8) :
    (r.advance bytes rest).rest = rest := rfl

@[simp] theorem Reader.advance_pos (r : Reader) (bytes rest : List UInt8) :
    (r.advance bytes rest).pos = r.pos + bytes.length := rfl

theorem Reader.advance_nil (r : Reader) : r.advance [] r.rest = r := rfl

@[simp] theorem Reader.advance_advance (r : Reader) (bytes bytes' rest rest' : List UInt8) :
    (r.advance bytes rest).advance bytes' rest' = r.advance (bytes ++ bytes') rest' := by
  simp [Reader.advance, Nat.add_assoc]

/-! ## The end of the file -/

/-- A read from the source that gives nothing sets `eof`. -/
theorem streamReadInternal_eof :
    ∀ {fuel : Nat} {s s' : Stream β} {n : Nat} {data : List UInt8},
      streamReadInternal ops fuel s n = some (data, s') → s'.eof = decide (data = [])
  | 0, _, _, _, _, h => by cases h
  | fuel + 1, s, s', n, data, h => by
    rw [streamReadInternal] at h
    simp only at h
    split at h
    · split at h
      · cases h
        rfl
      · split at h
        · exact streamReadInternal_eof h
        · cases h
          rfl
    case isFalse hne =>
      cases h
      exact (decide_eq_false hne).symm

/-- A refill sets `eof` exactly if it gets nothing. -/
theorem SeekableBackend.fillBuffer_eof (B : SeekableBackend ops type file offset)
    (h : Window type file offset a s) (hf : fillFuel ≤ fuel)
    (hfill : streamFillBuffer ops fuel s = some (n, s')) : s'.eof = decide (n = 0) := by
  obtain ⟨k, rfl⟩ : ∃ k, fuel = k + 1 := ⟨fuel - 1, by unfold fillFuel at hf; omega⟩
  obtain ⟨data, e, p, hread, -, -, -, hend⟩ :=
    B.readInternal k h.synced (n := streamBufferSize) (by decide)
  rw [h.offset_eq] at hend
  obtain ⟨n', s'', hfill', hcase⟩ := B.fillBuffer (k + 1) h hf
  rw [hfill] at hfill'
  cases hfill'
  have heof := streamReadInternal_eof hread
  rw [streamFillBuffer, hread] at hfill
  simp only [Option.bind_eq_bind, Option.bind_some] at hfill
  by_cases hd : data = []
  · rw [if_pos hd] at hfill
    cases hfill
    rw [heof, hd]
    rfl
  · rw [if_neg hd] at hfill
    obtain ⟨s1, _, hfill⟩ := Option.bind_eq_some_iff.mp hfill
    have hn : n ≠ 0 := by
      rcases hcase with ⟨_, hle, _⟩ | ⟨_, hpos, _⟩
      · exact absurd (hend.mpr hle) hd
      · exact Nat.ne_of_gt hpos
    cases hfill
    exact (decide_eq_false hn).symm

/-- Behind a round of a read or a skip `eof` is set at the end, and else only if it was
before. -/
theorem SeekableBackend.window_eof (B : SeekableBackend ops type file offset) {w : Option Int}
    (h : Window type file offset a s) (hf : fillFuel ≤ fuel)
    (hwin : streamWindow ops fuel s = some (w, s')) :
    (w = none → s'.eof = true) ∧ (w ≠ none → s'.eof = true → s.eof = true) := by
  rw [streamWindow] at hwin
  split at hwin
  · obtain ⟨⟨n, s1⟩, hfill, hwin⟩ := Option.bind_eq_some_iff.mp hwin
    have heof := B.fillBuffer_eof h hf hfill
    simp only at hwin
    split at hwin
    case isTrue hn =>
      cases hwin
      exact ⟨fun _ => heof.trans (decide_eq_true hn), fun hne => absurd rfl hne⟩
    case isFalse hn =>
      cases hwin
      rw [decide_eq_false hn] at heof
      refine ⟨fun hw => (by cases hw), fun _ ht => ?_⟩
      rw [heof] at ht
      cases ht
  · cases hwin
    exact ⟨fun hw => (by cases hw), fun _ ht => ht⟩

theorem SeekableBackend.readLoop_eof (B : SeekableBackend ops type file offset) :
    ∀ {fuel a : Nat} {s s' : Stream β} {len : Int} {bytes : List UInt8} {stop : Bool},
      Window type file offset a s → file.length - (a + s.bufPos) + fillFuel < fuel →
      streamReadLoop ops fuel s len = some (bytes, stop, s') →
      (stop = true → s'.eof = true ∧ (bytes.length : Int) < len) ∧
        (stop = false → s'.eof = true → s.eof = true)
  | 0, _, _, _, _, _, _, _, hf, _ => absurd hf (Nat.not_lt_zero _)
  | fuel + 1, a, s, s', len, bytes, stop, h, hf, hloop => by
    rw [streamReadLoop] at hloop
    split at hloop
    case isTrue hlen =>
      obtain ⟨w, s1, hwin, hcase⟩ := B.window fuel h (by omega)
      have heof := B.window_eof h (by omega) hwin
      rw [hwin] at hloop
      simp only [Option.bind_eq_bind, Option.bind_some] at hloop
      rcases hcase with ⟨rfl, _, _, _⟩ | ⟨a1, rfl, hwd, htell, hlt⟩
      · cases hloop
        exact ⟨fun _ => ⟨heof.1 rfl, hlen⟩, fun hs => by cases hs⟩
      · simp only at hloop
        obtain ⟨⟨bytes', stop', s2⟩, hrec, hres⟩ := Option.bind_eq_some_iff.mp hloop
        cases hres
        have hin := hwd.tell_lt hlt
        have hih := B.readLoop_eof (hwd.advance (k := ((s1.bufPos : Int) +
          min ((s1.bufLen : Int) - s1.bufPos) len).toNat) (by omega)) (by simp only; omega) hrec
        refine ⟨fun hs => ⟨(hih.1 hs).1, ?_⟩, fun hs ht => heof.2 (by simp) (hih.2 hs ht)⟩
        have hshort := (hih.1 hs).2
        simp only [streamBytes, List.length_append, List.length_map, List.length_range]
        omega
    case isFalse =>
      cases hloop
      exact ⟨fun hs => (by cases hs), fun _ ht => ht⟩

theorem SeekableBackend.skipLoop_eof (B : SeekableBackend ops type file offset) :
    ∀ {fuel a : Nat} {s s' : Stream β} {len ret : Int},
      Window type file offset a s → file.length - (a + s.bufPos) + fillFuel < fuel →
      streamSkipLoop ops fuel s len = some (ret, s') →
      (ret = 0 → s'.eof = true) ∧ (ret ≠ 0 → s'.eof = true → s.eof = true) ∧
        (ret ≠ 0 → 0 < len ∨ 0 < s.bufLen → 0 < s'.bufLen)
  | 0, _, _, _, _, _, _, hf, _ => absurd hf (Nat.not_lt_zero _)
  | fuel + 1, a, s, s', len, ret, h, hf, hloop => by
    rw [streamSkipLoop] at hloop
    split at hloop
    case isTrue hlen =>
      obtain ⟨w, s1, hwin, hcase⟩ := B.window fuel h (by omega)
      have heof := B.window_eof h (by omega) hwin
      rw [hwin] at hloop
      simp only [Option.bind_eq_bind, Option.bind_some] at hloop
      rcases hcase with ⟨rfl, _, _, _⟩ | ⟨a1, rfl, hwd, htell, hlt⟩
      · cases hloop
        exact ⟨fun _ => heof.1 rfl, fun hs => absurd rfl hs, fun hs => absurd rfl hs⟩
      · simp only at hloop
        have hin := hwd.tell_lt hlt
        have hih := B.skipLoop_eof (hwd.advance (k := ((s1.bufPos : Int) +
          min ((s1.bufLen : Int) - s1.bufPos) len).toNat) (by omega)) (by simp only; omega) hloop
        exact ⟨hih.1, fun hs ht => heof.2 (by simp) (hih.2.1 hs ht),
          fun hs _ => hih.2.2 hs (Or.inr (Nat.lt_of_le_of_lt (Nat.zero_le _) hlt))⟩
    case isFalse hlen =>
      cases hloop
      exact ⟨fun hs => (by cases hs), fun _ ht => ht, fun _ hpos => hpos.resolve_left hlen⟩

/-! ## The stream behind a reader -/

/-- A reader shows what a stream over a seekable backend has left. -/
structure Sees (type : StreamType) (file : List UInt8) (offset : β → Nat) (s : Stream β)
    (r : Reader) : Prop where
  window : ∃ a, Window type file offset a s ∧ a + s.bufPos = r.pos
  rest_eq : r.rest = file.drop r.pos
  eof_eq : s.eof = r.eof
  inside : r.pos ≤ file.length
  at_end : r.eof = true → r.rest = []

/-- What a stream with a window shows. -/
theorem Window.sees (h : Window type file offset a s) (heof : s.eof = false)
    (hin : a + s.bufPos ≤ file.length) :
    Sees type file offset s ⟨a + s.bufPos, file.drop (a + s.bufPos), false⟩ :=
  ⟨⟨a, h, rfl⟩, rfl, heof, hin, fun hne => (by cases hne)⟩

/-- What is left of the file behind `n` further bytes, and whether the end was met. -/
theorem Sees.moved (h : Sees type file offset s r) (hw : Window type file offset a s')
    (htell : a + s'.bufPos = r.pos + min n r.rest.length)
    (hshort : r.rest.length < n → s'.eof = true)
    (hfull : ¬ r.rest.length < n → s'.eof = true → s.eof = true) (hnone : n = 0 → s'.eof = s.eof) :
    Sees type file offset s' (r.skip n) := by
  have hlen : r.rest.length = file.length - r.pos := by rw [h.rest_eq, List.length_drop]
  have hin := h.inside
  refine ⟨⟨a, hw, htell⟩, ?_, ?_, ?_, ?_⟩
  · change r.rest.drop n = file.drop (r.pos + min n r.rest.length)
    rw [← List.drop_drop, ← h.rest_eq]
    rcases Nat.le_total n r.rest.length with hle | hle
    · rw [Nat.min_eq_left hle]
    · rw [Nat.min_eq_right hle, List.drop_length, List.drop_of_length_le hle]
  · change s'.eof = (r.eof || decide (r.rest.length < n))
    by_cases hlt : r.rest.length < n
    · rw [hshort hlt, decide_eq_true hlt, Bool.or_true]
    · rw [decide_eq_false hlt, Bool.or_false]
      cases hse : s'.eof with
      | true => rw [← h.eof_eq, hfull hlt hse]
      | false =>
        cases hre : r.eof with
        | false => rfl
        | true =>
          rw [h.at_end hre] at hlt
          have hzero := hnone (Nat.le_zero.mp (Nat.not_lt.mp hlt))
          rw [hse, h.eof_eq, hre] at hzero
          cases hzero
  · change r.pos + min n r.rest.length ≤ file.length
    omega
  · intro ht
    change r.rest.drop n = []
    rcases Bool.or_eq_true_iff.mp ht with hre | hlt
    · rw [h.at_end hre, List.drop_nil]
    · exact List.drop_of_length_le (Nat.le_of_lt (of_decide_eq_true hlt))

/-- `stream_read_char` is `Reader.readChar`. -/
theorem Sees.readChar (B : SeekableBackend ops type file offset) (h : Sees type file offset s r)
    (hf : file.length + fillFuel < fuel) :
    ∃ s', streamReadChar ops fuel s = some (r.readChar.1, s') ∧
      Sees type file offset s' r.readChar.2 := by
  obtain ⟨a, hw, hpos⟩ := h.window
  obtain ⟨ret, s', a', hread, hw', hres⟩ := B.readChar hw hf
  have heof : (ret = -256 → s'.eof = true) ∧ (ret ≠ -256 → s'.eof = true → s.eof = true) := by
    rw [streamReadChar] at hread
    split at hread
    · cases hread
      exact ⟨fun hneg => by omega, fun _ ht => ht⟩
    · obtain ⟨⟨n, s1⟩, hfill, hread⟩ := Option.bind_eq_some_iff.mp hread
      have hfe := B.fillBuffer_eof hw (by omega) hfill
      simp only at hread
      split at hread
      case isTrue hn =>
        cases hread
        exact ⟨fun _ => hfe.trans (decide_eq_true hn), fun hne => absurd rfl hne⟩
      case isFalse hn =>
        cases hread
        refine ⟨fun hneg => by omega, fun _ ht => ?_⟩
        simp only at ht
        rw [hfe, decide_eq_false hn] at ht
        cases ht
  rcases hres with ⟨b, hb, rfl, htell⟩ | ⟨hend, rfl, htell⟩
  · have hrest : r.rest = b :: file.drop (r.pos + 1) := by
      rw [h.rest_eq, ← hpos]
      exact (List.getElem?_eq_some_iff.mp hb).elim fun hlt heq =>
        heq ▸ List.drop_eq_getElem_cons hlt
    refine ⟨s', by rw [Reader.readChar_cons hrest]; exact hread, ?_⟩
    rw [r.readChar_snd]
    have hlen : min 1 r.rest.length = 1 := by rw [hrest, List.length_cons]; omega
    refine h.moved hw' (by rw [hlen, htell, hpos]) (fun hlt => ?_) (fun _ => heof.2 (by omega))
      fun h1 => absurd h1 Nat.one_ne_zero
    omega
  · have hrest : r.rest = [] := by rw [h.rest_eq, ← hpos]; exact List.drop_of_length_le hend
    refine ⟨s', by rw [Reader.readChar, hrest]; exact hread, ?_⟩
    rw [r.readChar_snd]
    exact h.moved hw' (by rw [htell, hpos, hrest]; rfl) (fun _ => heof.1 rfl)
      (fun hnot => absurd (by rw [hrest]; decide) hnot) fun h1 => absurd h1 Nat.one_ne_zero

/-- `stream_read` is `Reader.read`. -/
theorem Sees.read (B : SeekableBackend ops type file offset) {fuel : Nat} {s : Stream β}
    {r : Reader} (n : Nat) (h : Sees type file offset s r) (hf : file.length + fillFuel < fuel) :
    ∃ s', streamRead ops fuel s n = some (((r.read n).1.length : Int), (r.read n).1, s') ∧
      Sees type file offset s' (r.read n).2 := by
  obtain ⟨a, hw, hpos⟩ := h.window
  obtain ⟨bytes, stop, s', a', hloop, hw', hbytes, htell, hstop⟩ := B.readLoop fuel n hw (by omega)
  have heof := B.readLoop_eof hw (by omega) hloop
  rw [hpos, ← h.rest_eq, Int.toNat_natCast] at hbytes
  have hread : streamRead ops fuel s n = some ((bytes.length : Int), bytes, s') := by
    rw [streamRead, hloop]
    cases stop with
    | true => rfl
    | false =>
      have hlen := hstop rfl
      rw [Int.toNat_natCast] at hlen
      rw [hlen]
      rfl
  rw [hbytes] at hread
  refine ⟨s', hread, h.moved hw' ?_ ?_ ?_ ?_⟩
  · rw [htell, hpos, hbytes, List.length_take]
  · intro hlt
    cases stop with
    | true => exact (heof.1 rfl).1
    | false =>
      have hlen := hstop rfl
      rw [hbytes, List.length_take, Int.toNat_natCast] at hlen
      omega
  · intro hge
    cases stop with
    | false => exact heof.2 rfl
    | true =>
      have hlen := (heof.1 rfl).2
      rw [hbytes, List.length_take] at hlen
      omega
  · rintro rfl
    have hsame := hloop
    rw [show fuel = fuel - 1 + 1 by omega, streamReadLoop, if_neg (by omega)] at hsame
    cases hsame
    rfl

/-- `stream_skip` over a distance that it reads is `Reader.skip`. -/
theorem Sees.skip (B : SeekableBackend ops type file offset) {fuel n : Nat} {s : Stream β}
    {r : Reader} (h : Sees type file offset s r) (hf : file.length + fillFuel < fuel)
    (hnear : ¬ skipSeeks s n) :
    ∃ ret s', streamSkip ops fuel s n = some (ret, s') ∧ Sees type file offset s' (r.skip n) := by
  obtain ⟨a, hw, hpos⟩ := h.window
  obtain ⟨ret, s', a', hloop, hw', hres⟩ := B.skipLoop fuel n hw (by omega)
  have heof := B.skipLoop_eof hw (by omega) hloop
  have hlen : r.rest.length = file.length - r.pos := by rw [h.rest_eq, List.length_drop]
  rw [Int.toNat_natCast, hpos] at hres
  have hin := h.inside
  have hstay : ret = 1 → a' + s'.bufPos ≤ file.length := by
    intro hret
    have hle := hw'.bufPos_le
    by_cases hn : (0 : Int) < n
    · have hbuf := heof.2.2 (by omega) (Or.inl hn)
      have := hw'.mirrors.le_length hbuf
      omega
    · omega
  refine ⟨ret, s', by rw [streamSkip]; exact (if_neg hnear).trans hloop, h.moved hw' ?_ ?_ ?_ ?_⟩
  · rcases hres with ⟨hret, htell⟩ | ⟨_, htell, hlt⟩
    · have := hstay hret
      omega
    · omega
  · intro hlt
    rcases hres with ⟨hret, htell⟩ | ⟨hret, _, _⟩
    · have := hstay hret
      omega
    · exact heof.1 hret
  · intro hge
    rcases hres with ⟨hret, _⟩ | ⟨_, htell, hlt⟩
    · exact heof.2.1 (by omega)
    · omega
  · rintro rfl
    have hsame := hloop
    rw [show fuel = fuel - 1 + 1 by omega, streamSkipLoop, if_neg (by omega)] at hsame
    cases hsame
    rfl

end MPlayer
