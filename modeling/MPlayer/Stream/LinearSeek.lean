import MPlayer.Stream.Window

/-!
# Seeking in a linear stream

A linear stream delivers its bytes in order and cannot go back.  `stream_seek_long` rounds the
target down and reads on to there, or lets `seek_forward` do so, and then looks for the target
in the windows behind.  The reads end where the source's chunks do.
-/

namespace MPlayer

open Lib

/-! ## `seek_forward` -/

section Forward

variable {β : Type} (fill : Stream β → Nat → List UInt8 × Stream β)

/-- The loop of `seek_forward`.  Every round but the last delivers something. -/
def seekForwardLoop (newpos : Int) : Nat → Stream β → Stream β
  | 0, s => s
  | rounds + 1, s =>
    if s.pos < newpos then
      let r := fill s streamBufferSize
      if r.1 = [] then { r.2 with eof := true, bufPos := 0, bufLen := 0 }
      else seekForwardLoop newpos rounds { r.2 with
        buffer := blit r.2.buffer 0 r.1, bufPos := 0, bufLen := r.1.length
        pos := r.2.pos + r.1.length }
    else s

/-- `seek_forward`. -/
def seekForward (s : Stream β) (newpos : Int) : Bool × Stream β :=
  if newpos < s.pos then (false, s)
  else (true, seekForwardLoop fill newpos (newpos - s.pos).toNat s)

end Forward

/-! ## Linear sources -/

/-- The lengths of the chunks by their position and the length asked for. -/
abbrev Chunks := Nat → Nat → Nat

/-- A read from a linear source. -/
def linearRead (file : List UInt8) (chunk : Chunks) (a n : Nat) : List UInt8 :=
  (file.drop a).take (chunk a n)

/-- The read callback of a linear source, which may tell that it has ended. -/
def linearFill (file : List UInt8) (chunk : Chunks) (endEof : Bool) (s : Stream Nat) (n : Nat) :
    List UInt8 × Stream Nat :=
  (linearRead file chunk s.priv n, { s with
    eof := s.eof || endEof && decide (file.length ≤ s.priv)
    priv := s.priv + (linearRead file chunk s.priv n).length })

/-- A linear source, with `seek_forward` for its seek callback or without one. -/
structure LinearBackend (ops : StreamOps Nat) (type : StreamType) (forward : Bool)
    (file : List UInt8) (chunk : Chunks) (endEof : Bool) : Prop where
  read : ∀ s n, s.type = type → streamReadCallback ops s n = linearFill file chunk endEof s n
  chunk_pos : ∀ a n, 0 < n → 0 < chunk a n
  chunk_le : ∀ a n, chunk a n ≤ n
  reset : ∀ s, callReset ops s = s
  not_dvdnav : type ≠ .dvdnav
  seek_forward : forward = true → ops.seek = some (seekForward (linearFill file chunk endEof)) ∧
    (type = .stream → ops.configNetworking = true)
  no_seek : forward = false → type = .stream ∧
    (ops.configNetworking = false ∨ ops.seek = none ∧ ops.streamingSeek = none)

/-- A read that gives nothing is taken for the end of the stream. -/
def toldEnd (file : List UInt8) (endEof : Bool) (endPos : Int) : Bool :=
  endEof || decide (endPos ≠ 0 ∧ endPos = file.length)

/-- The stream and its source stand at `a`. -/
structure StandsAt (type : StreamType) (file : List UInt8) (endPos : Int) (a : Nat)
    (s : Stream Nat) : Prop where
  type_eq : s.type = type
  pos_eq : s.pos = a
  priv_eq : s.priv = a
  le : a ≤ file.length
  endPos_eq : s.endPos = endPos

variable {ops : StreamOps Nat} {type : StreamType} {forward : Bool} {file : List UInt8}
  {chunk : Chunks} {endEof : Bool} {endPos : Int}

variable {a q w pos : Nat} {s s' : Stream Nat}

theorem StandsAt.congr (h : StandsAt type file endPos a s) (htype : s'.type = s.type)
    (hpos : s'.pos = s.pos) (hpriv : s'.priv = s.priv) (hend : s'.endPos = s.endPos) :
    StandsAt type file endPos a s' :=
  ⟨htype.trans h.type_eq, hpos.trans h.pos_eq, hpriv.trans h.priv_eq, h.le, hend.trans h.endPos_eq⟩

theorem linearRead_of_file (file : List UInt8) (chunk : Chunks) (a n : Nat) :
    linearRead file chunk a n <+: file.drop a :=
  List.take_prefix _ _

theorem linearRead_length (file : List UInt8) (chunk : Chunks) (a n : Nat) :
    (linearRead file chunk a n).length = min (chunk a n) (file.length - a) := by
  rw [linearRead, List.length_take, List.length_drop]

theorem linearRead_end (h : file.length ≤ a) (n : Nat) : linearRead file chunk a n = [] := by
  rw [linearRead, List.drop_of_length_le h, List.take_nil]

theorem LinearBackend.seekInternal_forward (B : LinearBackend ops type forward file chunk endEof)
    (hf : forward = true) (h : s.type = type) {newpos : Int} (hne : newpos = 0 ∨ newpos ≠ s.pos) :
    streamSeekInternal ops s newpos =
      callSeek (seekForward (linearFill file chunk endEof)) s newpos := by
  obtain ⟨hseek, hnet⟩ := B.seek_forward hf
  rw [streamSeekInternal, if_pos hne, hseek]
  split
  next htype => rw [hnet (h.symm.trans htype)]
  next htype => rfl

theorem LinearBackend.seekInternal_none (B : LinearBackend ops type forward file chunk endEof)
    (hf : forward = false) (h : s.type = type) (newpos : Int) :
    streamSeekInternal ops s newpos = (if newpos < s.pos then 1 else -1, s) := by
  obtain ⟨htype, hnone⟩ := B.no_seek hf
  rw [streamSeekInternal]
  split
  · rw [if_pos (h.trans htype)]
    rcases hnone with hnone | ⟨hnone, hnone'⟩
    · rw [hnone]
    · rw [hnone, hnone']
      cases ops.configNetworking with
      | true => rfl
      | false => rfl
  next hhere =>
    have heq : newpos = s.pos := Decidable.byContradiction fun h => hhere (Or.inr h)
    rw [if_neg (heq ▸ Int.lt_irrefl newpos)]

/-- A seek to where the stream stands does nothing. -/
theorem LinearBackend.seekHere (B : LinearBackend ops type forward file chunk endEof)
    (h : s.type = type) : streamSeekInternal ops s s.pos = (-1, s) := by
  cases hf : forward with
  | true =>
    by_cases hne : s.pos = 0 ∨ s.pos ≠ s.pos
    · rw [B.seekInternal_forward hf h hne, callSeek, seekForward, if_neg (Int.lt_irrefl _),
        Int.sub_self]
      rfl
    · rw [streamSeekInternal, if_neg hne]
  | false => rw [B.seekInternal_none hf h, if_neg (Int.lt_irrefl _)]

/-! ## `stream_read_internal` -/

/-- A read before the end. -/
theorem LinearBackend.read_some (B : LinearBackend ops type forward file chunk endEof)
    (h : StandsAt type file endPos a s) (hlt : a < file.length) {n : Nat} (hn : 0 < n)
    (fuel : Nat) : linearRead file chunk a n ≠ [] ∧
      streamReadInternal ops (fuel + 1) s n = some (linearRead file chunk a n, { s with
        eof := false, pos := (a + (linearRead file chunk a n).length : Nat)
        priv := a + (linearRead file chunk a n).length }) := by
  have hpos := B.chunk_pos a n hn
  have hlen := linearRead_length file chunk a n
  have hne : linearRead file chunk a n ≠ [] := by
    intro hnil
    rw [hnil, List.length_nil] at hlen
    omega
  refine ⟨hne, ?_⟩
  rw [streamReadInternal, B.read s n h.type_eq, linearFill, h.priv_eq]
  dsimp only
  rw [if_neg hne, h.pos_eq, Int.natCast_add]

theorem LinearBackend.reconnect (B : LinearBackend ops type forward file chunk endEof)
    (h : s.type = type) :
    streamReconnect ops s = (true, { s with bufPos := 0, bufLen := 0, eof := false }) := by
  have hreset : streamReset ops { s with eof := true } =
      { s with bufPos := 0, bufLen := 0, eof := false } := by
    rw [streamReset, if_pos rfl, B.reset]
  have hseek := B.seekHere (s := { s with bufPos := 0, bufLen := 0, eof := false }) h
  rw [streamReconnect, maxReconnectRetries, streamReconnectLoop, hreset]
  dsimp only at hseek ⊢
  rw [hseek]
  exact if_neg (by simp)

/-- A read at an end that is told. -/
theorem LinearBackend.read_end (B : LinearBackend ops type forward file chunk endEof)
    (h : StandsAt type file endPos file.length s)
    (hquiet : s.eof = true ∨ toldEnd file endEof endPos = true) (n fuel : Nat) :
    streamReadInternal ops (fuel + 1) s n = some ([], { s with eof := true }) := by
  have hnil : linearRead file chunk file.length n = [] := linearRead_end (Nat.le_refl _) n
  rw [streamReadInternal, B.read s n h.type_eq, linearFill, h.priv_eq, hnil]
  dsimp only
  rw [if_pos rfl, if_pos]
  · simp only [List.length_nil, Nat.add_zero, ← h.priv_eq]
  · rcases hquiet with heof | hquiet
    · exact Or.inl (by rw [heof, Bool.true_or])
    · rw [toldEnd, Bool.or_eq_true, decide_eq_true_eq] at hquiet
      rcases hquiet with hend | ⟨hne, hend⟩
      · exact Or.inl (by simp [hend])
      · refine Or.inr (Or.inl ⟨?_, ?_⟩)
        · rw [h.endPos_eq]
          exact hne
        · rw [h.pos_eq, h.endPos_eq, hend]

/-- A read at an end that is not told. -/
theorem LinearBackend.read_again (B : LinearBackend ops type forward file chunk endEof)
    (h : StandsAt type file endPos file.length s) (heof : s.eof = false)
    (hquiet : toldEnd file endEof endPos = false) (n fuel : Nat) :
    streamReadInternal ops (fuel + 2) s n =
      some ([], { s with bufPos := 0, bufLen := 0, eof := true }) := by
  have hnil : linearRead file chunk file.length n = [] := linearRead_end (Nat.le_refl _) n
  rw [toldEnd, Bool.or_eq_false_iff, decide_eq_false_iff_not] at hquiet
  have hat : StandsAt type file endPos file.length
      { s with bufPos := 0, bufLen := 0, eof := true } :=
    h.congr rfl rfl rfl rfl
  have hcall : streamReadCallback ops s n = ([], { s with eof := false }) := by
    rw [B.read s n h.type_eq, linearFill, h.priv_eq, hnil, heof, hquiet.1]
    simp only [List.length_nil, Nat.add_zero, Bool.false_and, Bool.or_false, ← h.priv_eq]
  rw [streamReadInternal, hcall]
  dsimp only
  rw [if_pos rfl, if_neg, B.reconnect (s := { s with eof := false }) h.type_eq]
  · dsimp only
    rw [if_pos rfl]
    exact B.read_end hat (Or.inl rfl) n fuel
  · rintro (hf | ⟨hne, hend⟩ | hnav)
    · cases hf
    · exact hquiet.2 ⟨h.endPos_eq ▸ hne, by rw [← h.endPos_eq, ← hend, h.pos_eq]⟩
    · exact B.not_dvdnav (h.type_eq.symm.trans hnav)

/-! ## Refills -/

/-- The bytes that a refill at `a` holds after at most this many more reads. -/
def toppedUp (file : List UInt8) (chunk : Chunks) (a : Nat) : Nat → Nat → Nat
  | 0, len => len
  | reads + 1, len =>
    if len < streamBufferMin then
      toppedUp file chunk a reads (len + (linearRead file chunk (a + len) streamBufferMin).length)
    else len

/-- What a refill at `a` gives.  Few bytes are forgotten at an end that is not told. -/
def fillLen (file : List UInt8) (chunk : Chunks) (told : Bool) (a : Nat) : Nat :=
  let len := toppedUp file chunk a streamBufferMin (linearRead file chunk a streamBufferSize).length
  if len < streamBufferMin ∧ told = false then 0 else len

/-- The buffer holds the source from `a` on. -/
structure Held (type : StreamType) (file : List UInt8) (endPos : Int) (a : Nat) (s : Stream Nat) :
    Prop where
  stands : StandsAt type file endPos (a + s.bufLen) s
  mirrors : Mirrors s.buffer 0 file a s.bufLen

/-- A read goes behind what is held. -/
theorem Held.read {a : Nat} {s : Stream Nat} (h : Held type file endPos a s) (chunk : Chunks)
    (n : Nat) (e : Bool) :
    Held type file endPos a { s with
      eof := e
      pos := (a + s.bufLen + (linearRead file chunk (a + s.bufLen) n).length : Nat)
      priv := a + s.bufLen + (linearRead file chunk (a + s.bufLen) n).length
      buffer := blit s.buffer s.bufLen (linearRead file chunk (a + s.bufLen) n)
      bufLen := s.bufLen + (linearRead file chunk (a + s.bufLen) n).length } where
  stands := by
    have hle := h.stands.le
    have hlen := linearRead_length file chunk (a + s.bufLen) n
    refine ⟨h.stands.type_eq, ?_, ?_, ?_, h.stands.endPos_eq⟩
    · simp only [Nat.add_assoc]
    · simp only [Nat.add_assoc]
    · simp only
      omega
  mirrors := by
    have hcells := h.mirrors.blit_append (linearRead_of_file file chunk (a + s.bufLen) n)
    rw [Nat.zero_add] at hcells
    exact hcells

theorem fillLen_told (a : Nat) : fillLen file chunk true a =
    toppedUp file chunk a streamBufferMin (linearRead file chunk a streamBufferSize).length :=
  if_neg fun h => absurd h.2 (by decide)

theorem toppedUp_full {len : Nat} (h : streamBufferMin ≤ len) :
    ∀ k, toppedUp file chunk a k len = len
  | 0 => rfl
  | _ + 1 => if_neg (Nat.not_lt_of_le h)

theorem toppedUp_end {len : Nat} (h : file.length ≤ a + len) :
    ∀ k, toppedUp file chunk a k len = len
  | 0 => rfl
  | k + 1 => by
    rw [toppedUp, linearRead_end h, List.length_nil, Nat.add_zero, toppedUp_end h k, ite_self]

theorem toppedUp_le (a : Nat) : ∀ k len, len ≤ toppedUp file chunk a k len
  | 0, len => Nat.le_refl len
  | k + 1, len => by
    rw [toppedUp]
    split
    · exact Nat.le_trans (Nat.le_add_right len _) (toppedUp_le a k _)
    · exact Nat.le_refl len

/-- A top-up that has what it needs, meets an end that is told, or forgets what it holds. -/
theorem LinearBackend.topUp (B : LinearBackend ops type forward file chunk endEof) :
    ∀ (k : Nat) {s : Stream Nat}, Held type file endPos a s → s.eof = false →
      streamBufferMin - s.bufLen ≤ k →
      ∃ s', (∀ fuel, k + 3 ≤ fuel → streamTopUp ops fuel s = some s') ∧
        (if toppedUp file chunk a k s.bufLen < streamBufferMin ∧ toldEnd file endEof endPos = false
          then StandsAt type file endPos file.length s' ∧ s'.bufLen = 0
          else Held type file endPos a s' ∧ s'.bufLen = toppedUp file chunk a k s.bufLen ∧
            s'.bufPos = s.bufPos)
  | k, s, h, heof, hk => by
    by_cases hlt : s.bufLen < streamBufferMin
    · obtain ⟨k, rfl⟩ : ∃ n, k = n + 1 := ⟨k - 1, by omega⟩
      by_cases hend : a + s.bufLen = file.length
      · have hat := h.stands
        rw [hend] at hat
        rw [toppedUp_end (Nat.le_of_eq hend.symm)]
        cases htold : toldEnd file endEof endPos with
        | true =>
          refine ⟨{ s with eof := true }, fun fuel hfuel => ?_, ?_⟩
          · obtain ⟨fuel, rfl⟩ : ∃ n, fuel = n + 2 := ⟨fuel - 2, by omega⟩
            rw [streamTopUp, if_pos hlt, B.read_end hat (Or.inr htold)]
            simp only [Option.bind_eq_bind, Option.bind_some, if_true, blit_nil]
          · rw [if_neg (by simp)]
            exact ⟨⟨h.stands.congr rfl rfl rfl rfl, h.mirrors⟩, rfl, rfl⟩
        | false =>
          refine ⟨{ s with bufPos := 0, bufLen := 0, eof := true }, fun fuel hfuel => ?_, ?_⟩
          · obtain ⟨fuel, rfl⟩ : ∃ n, fuel = n + 3 := ⟨fuel - 3, by omega⟩
            rw [streamTopUp, if_pos hlt, B.read_again hat heof htold]
            simp only [Option.bind_eq_bind, Option.bind_some, if_true, blit_nil]
          · rw [if_pos ⟨hlt, rfl⟩]
            exact ⟨hat.congr rfl rfl rfl rfl, rfl⟩
      · have hin : a + s.bufLen < file.length := Nat.lt_of_le_of_ne h.stands.le hend
        have hread := B.read_some h.stands hin (n := streamBufferMin) (by decide)
        have hpos := List.length_pos_iff.mpr (hread 0).1
        obtain ⟨s', hs', hres⟩ := B.topUp k (h.read chunk streamBufferMin false) rfl (by
          simp only
          omega)
        refine ⟨s', fun fuel hfuel => ?_, ?_⟩
        · obtain ⟨fuel, rfl⟩ : ∃ n, fuel = n + 2 := ⟨fuel - 2, by omega⟩
          rw [streamTopUp, if_pos hlt, (hread fuel).2]
          exact (if_neg (hread fuel).1).trans (hs' (fuel + 1) (by omega))
        · rw [toppedUp, if_pos hlt]
          exact hres
    · have hfull : streamBufferMin ≤ s.bufLen := Nat.le_of_not_lt hlt
      refine ⟨s, fun fuel hfuel => ?_, ?_⟩
      · obtain ⟨fuel, rfl⟩ : ∃ n, fuel = n + 1 := ⟨fuel - 1, by omega⟩
        rw [streamTopUp, if_neg hlt]
      · rw [toppedUp_full hfull, if_neg fun hfew => hlt hfew.1]
        exact ⟨h, rfl, rfl⟩

theorem fillLen_end (told : Bool) : fillLen file chunk told file.length = 0 := by
  have hempty : toppedUp file chunk file.length streamBufferMin 0 = 0 :=
    toppedUp_end (Nat.le_refl _) streamBufferMin
  rw [fillLen, linearRead_end (Nat.le_refl _), List.length_nil, hempty, ite_self]

/-- The fuel of a refill. -/
def linearFuel : Nat := streamBufferMin + 3

/-- A refill gives nothing and leaves the stream at its end, or holds what it gives. -/
theorem LinearBackend.fillBuffer (B : LinearBackend ops type forward file chunk endEof)
    (h : StandsAt type file endPos a s) :
    ∃ s', (∀ fuel, linearFuel ≤ fuel → streamFillBuffer ops fuel s =
        some (fillLen file chunk (toldEnd file endEof endPos) a, s')) ∧
      (fillLen file chunk (toldEnd file endEof endPos) a = 0 ∧
          StandsAt type file endPos file.length s' ∨
        0 < s'.bufLen ∧ s'.bufLen = fillLen file chunk (toldEnd file endEof endPos) a ∧
          Held type file endPos a s' ∧ s'.bufPos = 0) := by
  by_cases hend : a = file.length
  · subst hend
    rw [fillLen_end]
    have hnothing {s' : Stream Nat} (hread : ∀ fuel, streamReadInternal ops (fuel + 2) s
        streamBufferSize = some ([], s')) (fuel : Nat) (hfuel : linearFuel ≤ fuel) :
        streamFillBuffer ops fuel s = some (0, s') := by
      obtain ⟨fuel, rfl⟩ : ∃ n, fuel = n + 2 := ⟨fuel - 2, by unfold linearFuel at hfuel; omega⟩
      rw [streamFillBuffer, hread fuel]
      simp only [Option.bind_eq_bind, Option.bind_some, if_true, blit_nil]
    by_cases hquiet : s.eof = true ∨ toldEnd file endEof endPos = true
    · exact ⟨_, hnothing fun fuel => B.read_end h hquiet _ (fuel + 1),
        Or.inl ⟨rfl, h.congr rfl rfl rfl rfl⟩⟩
    · rw [not_or, Bool.not_eq_true, Bool.not_eq_true] at hquiet
      exact ⟨_, hnothing fun fuel => B.read_again h hquiet.1 hquiet.2 _ fuel,
        Or.inl ⟨rfl, h.congr rfl rfl rfl rfl⟩⟩
  · have hin : a < file.length := Nat.lt_of_le_of_ne h.le hend
    have hread := B.read_some h hin (n := streamBufferSize) (by decide)
    have hpos := List.length_pos_iff.mpr (hread 0).1
    have hheld : Held type file endPos a { s with bufPos := 0, bufLen := 0 } :=
      ⟨h.congr rfl rfl rfl rfl, Mirrors.zero _ _ _ _⟩
    have hfirst := hheld.read chunk streamBufferSize false
    simp only [Nat.add_zero, Nat.zero_add] at hfirst
    obtain ⟨s', hs', hres⟩ := B.topUp streamBufferMin hfirst rfl (Nat.sub_le _ _)
    have hlen : s'.bufLen = fillLen file chunk (toldEnd file endEof endPos) a := by
      rw [fillLen]
      split at hres
      next hfew => rw [if_pos hfew, hres.2]
      next hmany => rw [if_neg hmany, hres.2.1]
    refine ⟨{ s' with eof := false }, fun fuel hfuel => ?_, ?_⟩
    · obtain ⟨fuel, rfl⟩ : ∃ n, fuel = n + 1 := ⟨fuel - 1, by unfold linearFuel at hfuel; omega⟩
      rw [streamFillBuffer, (hread fuel).2]
      simp only [Option.bind_eq_bind, Option.bind_some]
      rw [if_neg (hread fuel).1, hs' (fuel + 1) hfuel, Option.bind_some, hlen]
    · split at hres
      next hfew =>
        refine Or.inl ⟨hlen.symm.trans hres.2, ?_⟩
        exact hres.1.congr rfl rfl rfl rfl
      next hmany =>
        obtain ⟨hheld', htopped, hbufPos⟩ := hres
        refine Or.inr ⟨?_, hlen, ⟨hheld'.stands.congr rfl rfl rfl rfl, hheld'.mirrors⟩, hbufPos⟩
        exact htopped ▸ Nat.lt_of_lt_of_le hpos (toppedUp_le a _ _)

/-! ## Walks -/

/-- Steps from one position to the next reach the target first at this position, or go past it to
there. -/
inductive Lands (step : Nat → Nat) (target : Nat) : Nat → Nat → Prop
  | here {a : Nat} (h : target ≤ a) : Lands step target a a
  | next {a q : Nat} (h : a < target) (hstep : 0 < step a) (hq : Lands step target (a + step a) q) :
      Lands step target a q

/-- The offset from one position lies in the window that starts at the other. -/
inductive Reaches (fill : Nat → Nat) : Nat → Nat → Nat → Prop
  | here {a off : Nat} (hfill : 0 < fill a) (h : off ≤ fill a) : Reaches fill a off a
  | next {a off w : Nat} (hfill : 0 < fill a) (h : fill a < off)
      (hw : Reaches fill (a + fill a) (off - fill a) w) : Reaches fill a off w

variable {step fill : Nat → Nat} {target : Nat}

theorem Lands.unique {a : Nat} : ∀ {q q' : Nat}, Lands step target a q → Lands step target a q' →
    q = q'
  | _, _, .here _, .here _ => rfl
  | _, _, .here h, .next h' _ _ => absurd h (Nat.not_le_of_lt h')
  | _, _, .next h _ _, .here h' => absurd h' (Nat.not_le_of_lt h)
  | _, _, .next _ _ hq, .next _ _ hq' => hq.unique hq'

theorem Lands.target_le (h : Lands step target a q) : target ≤ q := by
  induction h with
  | here h => exact h
  | next _ _ _ ih => exact ih

theorem Lands.step_pos (h : Lands step target a q) (hlt : a < target) : 0 < step a := by
  cases h with
  | here hle => exact absurd hlt (Nat.not_lt_of_le hle)
  | next _ hstep _ => exact hstep

theorem Lands.of_next (h : Lands step target a q) (hlt : a < target) :
    Lands step target (a + step a) q := by
  cases h with
  | here hle => exact absurd hlt (Nat.not_lt_of_le hle)
  | next _ _ hq => exact hq

theorem Reaches.fill_pos {off : Nat} (h : Reaches fill a off w) : 0 < fill a := by
  cases h with
  | here hfill => exact hfill
  | next hfill => exact hfill

theorem Reaches.unique {a off : Nat} : ∀ {w w' : Nat}, Reaches fill a off w →
    Reaches fill a off w' → w = w'
  | _, _, .here _ _, .here _ _ => rfl
  | _, _, .here _ h, .next _ h' _ => absurd h (Nat.not_le_of_lt h')
  | _, _, .next _ h _, .here _ h' => absurd h' (Nat.not_le_of_lt h)
  | _, _, .next _ _ hw, .next _ _ hw' => hw.unique hw'

theorem Reaches.of_next {off : Nat} (h : Reaches fill a off w) (hlt : fill a < off) :
    Reaches fill (a + fill a) (off - fill a) w := by
  cases h with
  | here _ hle => exact absurd hlt (Nat.not_lt_of_le hle)
  | next _ _ hw => exact hw

/-! ## `stream_seek_long` -/

/-- The loop that looks for the window with the target finds the one that the offset lies in. -/
theorem LinearBackend.findPos (B : LinearBackend ops type forward file chunk endEof) :
    ∀ (k : Nat) {a : Nat} {s : Stream Nat} (off : Nat), StandsAt type file endPos a s →
      file.length - a ≤ k →
      ∃ r s', (∀ fuel, linearFuel + k + 1 ≤ fuel → streamFindPos ops fuel s off = some (r, s')) ∧
        (r = 0 ∧ (∀ w, ¬Reaches (fillLen file chunk (toldEnd file endEof endPos)) a off w) ∨
          r = 1 ∧ ∃ w, Reaches (fillLen file chunk (toldEnd file endEof endPos)) a off w ∧
            Held type file endPos w s' ∧ w + s'.bufPos = a + off ∧ s'.bufPos ≤ s'.bufLen ∧
            s'.bufLen = fillLen file chunk (toldEnd file endEof endPos) w)
  | k, a, s, off, h, hk => by
    obtain ⟨s1, hfill, hcase⟩ := B.fillBuffer h
    rcases hcase with ⟨hnone, -⟩ | ⟨hpos, hlen, hheld, -⟩
    · refine ⟨0, s1, fun fuel hfuel => ?_, Or.inl ⟨rfl, fun w hw => ?_⟩⟩
      · obtain ⟨fuel, rfl⟩ : ∃ n, fuel = n + 1 := ⟨fuel - 1, by omega⟩
        rw [streamFindPos, hfill fuel (by omega), hnone]
        simp only [Option.bind_eq_bind, Option.bind_some]
        exact if_neg fun hpos => absurd hpos.1 (Nat.lt_irrefl 0)
      · exact absurd hw.fill_pos (by omega)
    · have hstep (fuel : Nat) (hfuel : linearFuel + k + 1 ≤ fuel + 1) :
          streamFindPos ops (fuel + 1) s off =
            if (off : Int) ≤ s1.bufLen then some (1, { s1 with bufPos := off })
            else streamFindPos ops fuel s1 ((off : Int) - s1.bufLen) := by
        rw [streamFindPos, hfill fuel (by omega), ← hlen]
        simp only [Option.bind_eq_bind, Option.bind_some]
        exact if_pos ⟨hpos, Int.natCast_nonneg off⟩
      by_cases hle : off ≤ s1.bufLen
      · refine ⟨1, { s1 with bufPos := off }, fun fuel hfuel => ?_, Or.inr ⟨rfl, a, ?_⟩⟩
        · obtain ⟨fuel, rfl⟩ : ∃ n, fuel = n + 1 := ⟨fuel - 1, by omega⟩
          rw [hstep fuel hfuel, if_pos (Int.ofNat_le.mpr hle)]
        · refine ⟨.here (hlen ▸ hpos) (hlen ▸ hle), ⟨?_, hheld.mirrors⟩, rfl, hle, hlen⟩
          exact hheld.stands.congr rfl rfl rfl rfl
      · have hlt : s1.bufLen < off := Nat.lt_of_not_le hle
        have hin := hheld.stands.le
        obtain ⟨k, rfl⟩ : ∃ n, k = n + 1 := ⟨k - 1, by omega⟩
        obtain ⟨r, s', hfind, hres⟩ := B.findPos k (off - s1.bufLen) hheld.stands (by omega)
        refine ⟨r, s', fun fuel hfuel => ?_, ?_⟩
        · obtain ⟨fuel, rfl⟩ : ∃ n, fuel = n + 1 := ⟨fuel - 1, by omega⟩
          rw [hstep fuel hfuel, if_neg (by omega), ← hfind fuel (by omega),
            Int.ofNat_sub (by omega)]
        · rw [hlen] at hres hlt
          rcases hres with ⟨hr, hno⟩ | ⟨hr, w, hw, hheld', htell, hbuf⟩
          · exact Or.inl ⟨hr, fun w hw => hno w (hw.of_next hlt)⟩
          · refine Or.inr ⟨hr, w, .next (by omega) hlt hw, hheld', ?_, hbuf⟩
            omega

/-- The stream stands where the steps land, or at its end if they stop before. -/
def Approached (type : StreamType) (file : List UInt8) (endPos : Int) (step : Nat → Nat)
    (target a : Nat) (s : Stream Nat) : Prop :=
  (∃ q, Lands step target a q ∧ StandsAt type file endPos q s) ∨
    (∀ q, ¬Lands step target a q) ∧ StandsAt type file endPos file.length s

theorem Approached.next {a : Nat} {s : Stream Nat} (hlt : a < target) (hstep : 0 < step a)
    (h : Approached type file endPos step target (a + step a) s) :
    Approached type file endPos step target a s := by
  rcases h with ⟨q, hq, hat⟩ | ⟨hno, hat⟩
  · exact Or.inl ⟨q, .next hlt hstep hq, hat⟩
  · exact Or.inr ⟨fun q hq => hno q (hq.of_next hlt), hat⟩

/-- The loop that reads on to the target. -/
theorem LinearBackend.readTo (B : LinearBackend ops type forward file chunk endEof)
    (target : Nat) : ∀ (k : Nat) {a : Nat} {s : Stream Nat}, StandsAt type file endPos a s →
      file.length - a ≤ k →
      ∃ s', (∀ fuel, linearFuel + k + 1 ≤ fuel → streamReadTo ops target fuel s = some s') ∧
        Approached type file endPos (fillLen file chunk (toldEnd file endEof endPos)) target a s'
  | k, a, s, h, hk => by
    by_cases hlt : a < target
    · have hlt' : s.pos < target := by
        rw [h.pos_eq]
        exact Int.ofNat_lt.mpr hlt
      obtain ⟨s1, hfill, hcase⟩ := B.fillBuffer h
      have hstep (fuel : Nat) (hfuel : linearFuel + k + 1 ≤ fuel + 1) :
          streamReadTo ops target (fuel + 1) s =
            if fillLen file chunk (toldEnd file endEof endPos) a = 0 then some s1
            else streamReadTo ops target fuel s1 := by
        rw [streamReadTo, if_pos hlt', hfill fuel (by omega)]
        rfl
      rcases hcase with ⟨hnone, hat⟩ | ⟨hpos, hlen, hheld, -⟩
      · refine ⟨s1, fun fuel hfuel => ?_, Or.inr ⟨fun q hq => ?_, hat⟩⟩
        · obtain ⟨fuel, rfl⟩ : ∃ n, fuel = n + 1 := ⟨fuel - 1, by omega⟩
          rw [hstep fuel hfuel, if_pos hnone]
        · exact absurd (hq.step_pos hlt) (by omega)
      · have hin := hheld.stands.le
        rw [hlen] at hpos
        obtain ⟨k, rfl⟩ : ∃ n, k = n + 1 := ⟨k - 1, by omega⟩
        obtain ⟨s', hread, happ⟩ := B.readTo target k hheld.stands (by omega)
        rw [hlen] at happ
        refine ⟨s', fun fuel hfuel => ?_, happ.next hlt hpos⟩
        obtain ⟨fuel, rfl⟩ : ∃ n, fuel = n + 1 := ⟨fuel - 1, by omega⟩
        rw [hstep fuel hfuel, if_neg (Nat.ne_of_gt hpos), hread fuel (by omega)]
    · have hle : target ≤ a := Nat.le_of_not_lt hlt
      refine ⟨s, fun fuel hfuel => ?_, Or.inl ⟨a, .here hle, h⟩⟩
      obtain ⟨fuel, rfl⟩ : ∃ n, fuel = n + 1 := ⟨fuel - 1, by omega⟩
      rw [streamReadTo, if_neg]
      rw [h.pos_eq]
      exact Int.not_lt.mpr (Int.ofNat_le.mpr hle)

/-- The length of a read of `seek_forward`. -/
def stepLen (file : List UInt8) (chunk : Chunks) (a : Nat) : Nat :=
  (linearRead file chunk a streamBufferSize).length

/-- The loop of `seek_forward`. -/
theorem LinearBackend.seekForwardLoop (B : LinearBackend ops type forward file chunk endEof)
    (target : Nat) : ∀ (rounds : Nat) {a : Nat} {s : Stream Nat}, StandsAt type file endPos a s →
      target - a ≤ rounds →
      Approached type file endPos (stepLen file chunk) target a
        (seekForwardLoop (linearFill file chunk endEof) target rounds s)
  | 0, a, s, h, hk => Or.inl ⟨a, .here (by omega), h⟩
  | rounds + 1, a, s, h, hk => by
    rw [MPlayer.seekForwardLoop]
    split
    next hlt =>
      rw [h.pos_eq, Int.ofNat_lt] at hlt
      rw [linearFill, h.priv_eq]
      dsimp only
      split
      next hnil =>
        have hend : a = file.length := by
          have hlen := linearRead_length file chunk a streamBufferSize
          have hpos := B.chunk_pos a streamBufferSize (by decide)
          have hle := h.le
          rw [hnil, List.length_nil] at hlen
          omega
        refine Or.inr ⟨fun q hq => ?_, ?_⟩
        · have hstep := hq.step_pos hlt
          rw [stepLen, hnil] at hstep
          exact absurd hstep (Nat.lt_irrefl 0)
        · rw [← hend, hnil]
          exact h.congr rfl rfl h.priv_eq.symm rfl
      next hdata =>
        have hstep : 0 < stepLen file chunk a := List.length_pos_iff.mpr hdata
        have hlen := linearRead_length file chunk a streamBufferSize
        have hle := h.le
        refine Approached.next hlt hstep (B.seekForwardLoop target rounds ⟨h.type_eq, ?_, rfl, ?_,
          h.endPos_eq⟩ (by omega))
        · simp only [h.pos_eq, stepLen, Int.natCast_add]
        · rw [stepLen]
          omega
    next hge =>
      rw [h.pos_eq, Int.ofNat_lt] at hge
      exact Or.inl ⟨a, .here (Nat.le_of_not_lt hge), h⟩

/-- The step by which a seek comes to its target. -/
def approachLen (forward : Bool) (file : List UInt8) (chunk : Chunks) (told : Bool) : Nat → Nat :=
  if forward then stepLen file chunk else fillLen file chunk told

theorem LinearBackend.readTo_from (B : LinearBackend ops type forward file chunk endEof)
    (h : Approached type file endPos step target a s) :
    ∃ s', (∀ fuel, linearFuel + file.length + 1 ≤ fuel → streamReadTo ops target fuel s = some s') ∧
      Approached type file endPos step target a s' := by
  rcases h with ⟨q, hq, hat⟩ | ⟨hno, hat⟩
  · obtain ⟨s', hread, happ⟩ := B.readTo target file.length hat (Nat.sub_le _ _)
    refine ⟨s', hread, Or.inl ⟨q, hq, ?_⟩⟩
    rcases happ with ⟨q', hq', hat'⟩ | ⟨hno, -⟩
    · exact hq'.unique (.here hq.target_le) ▸ hat'
    · exact absurd (.here hq.target_le) (hno q)
  · obtain ⟨s', hread, happ⟩ := B.readTo target file.length hat (Nat.sub_le _ _)
    refine ⟨s', hread, Or.inr ⟨hno, ?_⟩⟩
    rcases happ with ⟨q', hq', hat'⟩ | ⟨-, hat'⟩
    · cases hq' with
      | here => exact hat'
      | next _ hstep => exact absurd hstep (by rw [fillLen_end]; exact Nat.lt_irrefl 0)
    · exact hat'

/-- A seek that goes on comes to its target, past it, or to the end. -/
theorem LinearBackend.approach (B : LinearBackend ops type forward file chunk endEof)
    (h : StandsAt type file endPos a s) (hle : a ≤ target) :
    ∃ s1 s', streamSeekInternal ops s target = (-1, s1) ∧
      (∀ fuel, linearFuel + file.length + 1 ≤ fuel → streamReadTo ops target fuel s1 = some s') ∧
      Approached type file endPos (approachLen forward file chunk (toldEnd file endEof endPos))
        target a s' := by
  have hlt : ¬(target : Int) < s.pos := by
    rw [h.pos_eq]
    exact Int.not_lt.mpr (Int.ofNat_le.mpr hle)
  cases hf : forward with
  | true =>
    have happ : ∃ s1, streamSeekInternal ops s target = (-1, s1) ∧
        Approached type file endPos (stepLen file chunk) target a s1 := by
      by_cases hne : (target : Int) = 0 ∨ (target : Int) ≠ s.pos
      · have hloop := B.seekForwardLoop target ((target : Int) - s.pos).toNat h (by
          rw [h.pos_eq]
          omega)
        refine ⟨_, ?_, hloop⟩
        rw [B.seekInternal_forward hf h.type_eq hne, callSeek, seekForward, if_neg hlt]
        rfl
      · have heq : (target : Int) = s.pos := Decidable.byContradiction fun h => hne (Or.inr h)
        rw [h.pos_eq, Int.ofNat_inj] at heq
        refine ⟨s, ?_, Or.inl ⟨a, .here (Nat.le_of_eq heq), h⟩⟩
        rw [streamSeekInternal, if_neg hne]
    obtain ⟨s1, hs1, happ⟩ := happ
    obtain ⟨s', hread, happ'⟩ := B.readTo_from happ
    exact ⟨s1, s', hs1, hread, happ'⟩
  | false =>
    obtain ⟨s', hread, happ⟩ := B.readTo target file.length h (Nat.sub_le _ _)
    refine ⟨s, s', ?_, hread, happ⟩
    rw [B.seekInternal_none hf h.type_eq, if_neg hlt]

/-! ## `stream_seek` -/

/-- The bytes at this position are forgotten when a refill reads them. -/
def Forgets (file : List UInt8) (fill : Nat → Nat) (pos : Nat) : Prop :=
  pos < file.length ∧ fill pos = 0

/-- A seek returns, and if it reports success then the stream stands at the target and the next
byte read is the one there. -/
def SeekExact (ops : StreamOps Nat) (file : List UInt8) (s : Stream Nat) (pos : Nat) : Prop :=
  ∃ r s', Returns (fun fuel => streamSeek ops fuel s pos) (r, s') ∧
    (r = 1 → streamTell s' = pos ∧ ∃ s'', Returns (fun fuel => streamReadChar ops fuel s')
      ((file[pos]?).elim (-256) fun b => (b.toNat : Int), s''))

/-- The target is buffered, or the stream stands there, or its reads come to the position that the
target is rounded down to and not past it.  A target that begins a refill is not forgotten by
it. -/
def SeekFits (forward : Bool) (file : List UInt8) (chunk : Chunks) (told : Bool) (s : Stream Nat)
    (pos : Nat) : Prop :=
  if (pos : Int) < s.pos then True
  else if s.bufLen = 0 ∧ s.pos = pos then ¬Forgets file (fillLen file chunk told) pos
  else if streamAlign s pos < s.pos then
    forward = true ∨ s.pos = pos ∧ ¬Forgets file (fillLen file chunk told) pos
  else ∀ q w, Lands (approachLen forward file chunk told) (streamAlign s pos).toNat s.priv q →
    Reaches (fillLen file chunk told) q (pos - (streamAlign s pos).toNat) w →
    (q : Int) = streamAlign s pos ∧
      (pos = w + fillLen file chunk told w → ¬Forgets file (fillLen file chunk told) pos)

/-- The next byte. -/
theorem LinearBackend.readChar_iff (B : LinearBackend ops type forward file chunk endEof)
    (h : Held type file endPos w s) (hbuf : s.bufPos ≤ s.bufLen) :
    (∃ s', Returns (fun fuel => streamReadChar ops fuel s)
      ((file[w + s.bufPos]?).elim (-256) fun b => (b.toNat : Int), s')) ↔
    (s.bufPos = s.bufLen →
      ¬Forgets file (fillLen file chunk (toldEnd file endEof endPos)) (w + s.bufPos)) := by
  by_cases hlt : s.bufPos < s.bufLen
  · have hcell := h.mirrors s.bufPos hlt
    rw [Nat.zero_add] at hcell
    rw [hcell]
    refine ⟨fun _ heq => absurd heq (Nat.ne_of_lt hlt), fun _ =>
      ⟨{ s with bufPos := s.bufPos + 1 }, 0, fun fuel _ => ?_⟩⟩
    exact if_pos hlt
  · have heq : s.bufPos = s.bufLen := Nat.le_antisymm hbuf (Nat.le_of_not_lt hlt)
    rw [heq]
    obtain ⟨s1, hfill, hcase⟩ := B.fillBuffer h.stands
    have hread (fuel : Nat) (hfuel : linearFuel ≤ fuel) : streamReadChar ops fuel s =
        if fillLen file chunk (toldEnd file endEof endPos) (w + s.bufLen) = 0 then some (-256, s1)
        else some (((s1.buffer s1.bufPos).toNat : Int), { s1 with bufPos := s1.bufPos + 1 }) := by
      rw [streamReadChar, if_neg hlt, hfill fuel hfuel]
      rfl
    rcases hcase with ⟨hnone, -⟩ | ⟨hpos, hlen, hheld, hzero⟩
    · simp only [hnone, if_true] at hread
      constructor
      · rintro ⟨s', hs'⟩ - ⟨hin, -⟩
        have hval := hs'.unique ⟨linearFuel, hread⟩
        rw [List.getElem?_eq_getElem hin, Option.elim_some, Prod.mk.injEq] at hval
        omega
      · intro hkeeps
        have hout : file.length ≤ w + s.bufLen :=
          Nat.le_of_not_lt fun hin => hkeeps rfl ⟨hin, hnone⟩
        rw [List.getElem?_eq_none hout]
        exact ⟨s1, linearFuel, hread⟩
    · have hcell := hheld.mirrors 0 hpos
      rw [Nat.add_zero, Nat.zero_add, ← hzero] at hcell
      rw [hlen] at hpos
      simp only [Nat.ne_of_gt hpos, if_false] at hread
      rw [hcell]
      refine ⟨fun _ _ hforgets => absurd hforgets.2 (Nat.ne_of_gt hpos), fun _ => ?_⟩
      exact ⟨_, linearFuel, hread⟩

/-- A seek that fails is reported. -/
theorem SeekExact.of_fail {r : Int} (h : Returns (fun fuel => streamSeek ops fuel s pos) (r, s'))
    (hr : r ≠ 1) : SeekExact ops file s pos :=
  ⟨r, s', h, fun heq => absurd heq hr⟩

/-- When a seek that succeeds is exact. -/
theorem LinearBackend.seekExact_iff (B : LinearBackend ops type forward file chunk endEof)
    (h : Returns (fun fuel => streamSeek ops fuel s pos) (1, s'))
    (hheld : Held type file endPos w s') (hbuf : s'.bufPos ≤ s'.bufLen) :
    SeekExact ops file s pos ↔ w + s'.bufPos = pos ∧ (s'.bufPos = s'.bufLen →
      ¬Forgets file (fillLen file chunk (toldEnd file endEof endPos)) pos) := by
  have htell : streamTell s' = (w + s'.bufPos : Nat) := by
    rw [streamTell, hheld.stands.pos_eq]
    omega
  constructor
  · rintro ⟨r, s2, hret, hexact⟩
    cases hret.unique h
    obtain ⟨hpos, hnext⟩ := hexact rfl
    rw [htell, Int.ofNat_inj] at hpos
    rw [← hpos] at hnext ⊢
    exact ⟨rfl, (B.readChar_iff hheld hbuf).mp hnext⟩
  · rintro ⟨hpos, hkeeps⟩
    refine ⟨1, s', h, fun _ => ⟨by rw [htell, hpos], ?_⟩⟩
    rw [← hpos] at hkeeps ⊢
    exact (B.readChar_iff hheld hbuf).mpr hkeeps

theorem streamSeek_nat (fuel : Nat) (s : Stream Nat) (pos : Nat) : streamSeek ops fuel s pos =
    if s.bufLen = 0 ∧ s.pos = pos then some (1, s)
    else if (pos : Int) < s.pos ∧ 0 ≤ pos - (s.pos - s.bufLen) then
      some (1, { s with bufPos := ((pos : Int) - (s.pos - s.bufLen)).toNat })
    else streamSeekLong ops fuel s pos := by
  rw [streamSeek, if_neg (Int.not_lt.mpr (Int.natCast_nonneg pos))]

/-- The stream with an empty buffer. -/
def Stream.emptied (s : Stream Nat) : Stream Nat := { s with bufPos := 0, bufLen := 0 }

theorem streamSeekLong_read (hmode : s.mode = .read) (fuel pos : Nat) :
    streamSeekLong ops fuel s pos =
      let r := streamSeekInternal ops s.emptied (streamAlign s pos)
      if 0 ≤ r.1 then some r
      else (streamReadTo ops (streamAlign s pos) fuel r.2).bind fun s' =>
        streamFindPos ops fuel s' (pos - streamAlign s pos) :=
  if_neg (by
    rw [hmode]
    decide)

/-- A seek that the source does not go along with. -/
theorem LinearBackend.seekLong_back (B : LinearBackend ops type forward file chunk endEof)
    (h : s.type = type) (hmode : s.mode = .read) (hback : streamAlign s pos < s.pos) (fuel : Nat) :
    streamSeekLong ops fuel s pos = some (if forward then 0 else 1, s.emptied) := by
  have hback' : streamAlign s pos < s.emptied.pos := hback
  have htype : s.emptied.type = type := h
  rw [streamSeekLong_read hmode]
  cases hf : forward with
  | true =>
    rw [B.seekInternal_forward hf htype (Or.inr (Int.ne_of_lt hback')), callSeek, seekForward,
      if_pos hback']
    rfl
  | false =>
    rw [B.seekInternal_none hf htype, if_pos hback']
    rfl

/-- A seek that the source goes along with. -/
theorem LinearBackend.seekLong_on (B : LinearBackend ops type forward file chunk endEof)
    (h : StandsAt type file endPos a s) (hmode : s.mode = .read) {target : Nat}
    (htarget : streamAlign s pos = target) (hle : a ≤ target) (hpos : target ≤ pos) :
    ∃ r s', Returns (fun fuel => streamSeekLong ops fuel s pos) (r, s') ∧
      (r = 0 ∧ (∀ q w, Lands (approachLen forward file chunk (toldEnd file endEof endPos))
          target a q →
          ¬Reaches (fillLen file chunk (toldEnd file endEof endPos)) q (pos - target) w) ∨
        r = 1 ∧ ∃ q w, Lands (approachLen forward file chunk (toldEnd file endEof endPos))
          target a q ∧
          Reaches (fillLen file chunk (toldEnd file endEof endPos)) q (pos - target) w ∧
          Held type file endPos w s' ∧ w + s'.bufPos = q + (pos - target) ∧
          s'.bufPos ≤ s'.bufLen ∧
          s'.bufLen = fillLen file chunk (toldEnd file endEof endPos) w) := by
  obtain ⟨s1, s2, hseek, hread, happ⟩ :=
    B.approach (s := s.emptied) (h.congr rfl rfl rfl rfl) hle
  have hlong (fuel : Nat) (hfuel : linearFuel + file.length + 1 ≤ fuel) :
      streamSeekLong ops fuel s pos = streamFindPos ops fuel s2 (pos - target : Nat) := by
    rw [streamSeekLong_read hmode, htarget, hseek]
    dsimp only
    rw [if_neg (by decide), hread fuel hfuel, Option.bind_some, Int.ofNat_sub hpos]
  rcases happ with ⟨q, hq, hat⟩ | ⟨hno, hat⟩
  · obtain ⟨r, s', hfind, hres⟩ := B.findPos file.length (pos - target) hat (Nat.sub_le _ _)
    refine ⟨r, s', ⟨linearFuel + file.length + 1, fun fuel hfuel =>
      (hlong fuel hfuel).trans (hfind fuel hfuel)⟩, ?_⟩
    rcases hres with ⟨hr, hno⟩ | ⟨hr, w, hw, hheld, htell, hbuf, hlen⟩
    · exact Or.inl ⟨hr, fun q' w hq' => hq'.unique hq ▸ hno w⟩
    · exact Or.inr ⟨hr, q, w, hq, hw, hheld, htell, hbuf, hlen⟩
  · obtain ⟨r, s', hfind, hres⟩ := B.findPos file.length (pos - target) hat (Nat.sub_le _ _)
    refine ⟨r, s', ⟨linearFuel + file.length + 1, fun fuel hfuel =>
      (hlong fuel hfuel).trans (hfind fuel hfuel)⟩, Or.inl ⟨?_, fun q w hq => absurd hq (hno q)⟩⟩
    rcases hres with ⟨hr, -⟩ | ⟨-, w, hw, -⟩
    · exact hr
    · exact absurd hw.fill_pos (by rw [fillLen_end]; exact Nat.lt_irrefl 0)

/-- A seek in a linear stream is exact or reported as failed if it fits, and only then. -/
theorem stream_seek_exact_iff (B : LinearBackend ops type forward file chunk endEof) {a : Nat}
    {s : Stream Nat} (h : Held type file endPos a s) (hbuf : s.bufPos ≤ s.bufLen)
    (hmode : s.mode = .read) {pos : Nat} (hahead : streamTell s ≤ pos) :
    SeekExact ops file s pos ↔ SeekFits forward file chunk (toldEnd file endEof endPos) s pos := by
  have hat := h.stands
  have hposEq := hat.pos_eq
  rw [streamTell, hposEq] at hahead
  rw [SeekFits]
  split
  next hin =>
    rw [hposEq] at hin
    have hseek (fuel : Nat) : streamSeek ops fuel s pos =
        some (1, { s with bufPos := pos - a }) := by
      rw [streamSeek_nat, if_neg (by omega), if_pos (by omega)]
      congr 4
      omega
    refine iff_of_true ?_ trivial
    refine (B.seekExact_iff ⟨0, fun fuel _ => hseek fuel⟩
      ⟨hat.congr rfl rfl rfl rfl, h.mirrors⟩ ?_).mpr ⟨?_, fun heq => ?_⟩
    · simp only
      omega
    · simp only
      omega
    · simp only at heq
      omega
  next hout =>
    split
    next hhere =>
      have hseek (fuel : Nat) : streamSeek ops fuel s pos = some (1, s) := by
        rw [streamSeek_nat, if_pos hhere]
      rw [B.seekExact_iff ⟨0, fun fuel _ => hseek fuel⟩ h hbuf]
      refine ⟨fun hexact => hexact.2 (by omega), fun hkeeps => ⟨by omega, fun _ => hkeeps⟩⟩
    next hthere =>
      have hseek (fuel : Nat) : streamSeek ops fuel s pos = streamSeekLong ops fuel s pos := by
        rw [streamSeek_nat, if_neg hthere, if_neg fun h => hout h.1]
      split
      next hback =>
        have hlong (fuel : Nat) : streamSeek ops fuel s pos =
            some (if forward then 0 else 1, s.emptied) :=
          (hseek fuel).trans (B.seekLong_back hat.type_eq hmode hback fuel)
        cases hf : forward with
        | true =>
          rw [hf] at hlong
          refine iff_of_true ?_ (Or.inl rfl)
          exact SeekExact.of_fail ⟨0, fun fuel _ => hlong fuel⟩ (by decide)
        | false =>
          rw [hf] at hlong
          have hheld : Held type file endPos (a + s.bufLen) s.emptied :=
            ⟨hat.congr rfl rfl rfl rfl, Mirrors.zero _ _ _ _⟩
          rw [B.seekExact_iff ⟨0, fun fuel _ => hlong fuel⟩ hheld (Nat.le_refl 0)]
          constructor
          · rintro ⟨hpos, hkeeps⟩
            exact Or.inr ⟨by rw [hposEq, ← hpos]; rfl, hkeeps rfl⟩
          · rintro (hfalse | ⟨hpos, hkeeps⟩)
            · cases hfalse
            · rw [hposEq, Int.ofNat_inj] at hpos
              exact ⟨hpos, fun _ => hkeeps⟩
      next hon =>
        obtain ⟨target, htarget, hle⟩ := streamAlign_spec s pos
        rw [htarget, hposEq, Int.ofNat_lt] at hon
        obtain ⟨r, s', hret, hres⟩ :=
          B.seekLong_on hat hmode htarget (Nat.le_of_not_lt hon) hle
        have hret' : Returns (fun fuel => streamSeek ops fuel s pos) (r, s') := by
          simp only [hseek]
          exact hret
        rw [htarget, Int.toNat_natCast, hat.priv_eq]
        rcases hres with ⟨hr, hno⟩ | ⟨hr, q, w, hq, hw, hheld, htell, hbuf', hlen⟩
        · refine iff_of_true (SeekExact.of_fail hret' ?_) fun q w hq hw => absurd hw (hno q w hq)
          rw [hr]
          decide
        · subst hr
          rw [B.seekExact_iff hret' hheld hbuf', hlen]
          constructor
          · rintro ⟨hpos, hkeeps⟩ q' w' hq' hw'
            cases hq.unique hq'
            cases hw.unique hw'
            exact ⟨by omega, fun hend => hkeeps (by omega)⟩
          · intro hfits
            obtain ⟨hmeets, hkeeps⟩ := hfits q w hq hw
            exact ⟨by omega, fun hend => hkeeps (by omega)⟩

/-! ## Two sources -/

/-- The callbacks of a linear source whose reads give at most this many bytes. -/
def linearOps (file : List UInt8) (most : Nat) : StreamOps Nat where
  configNetworking := false
  fillBuffer := some (linearFill file (fun _ n => min n most) true)
  readFd := fun s _ => ([], s)
  demuxReadData := fun s _ => ([], s)
  seek := some (seekForward (linearFill file (fun _ n => min n most) true))
  controlReset := none
  streamingRead := none
  streamingStopped := fun _ => false
  streamingSeek := none

theorem linearOps_backend (file : List UInt8) (most : Nat) (h : 0 < most) :
    LinearBackend (linearOps file most) .file true file (fun _ n => min n most) true where
  read := by
    intro s n h
    rw [streamReadCallback, h]
    rfl
  chunk_pos := fun _ _ hn => Nat.lt_min.mpr ⟨hn, h⟩
  chunk_le := fun _ _ => Nat.min_le_left _ _
  reset := fun _ => rfl
  not_dvdnav := by decide
  seek_forward := fun _ => ⟨rfl, fun h => absurd h (by decide)⟩
  no_seek := fun h => absurd h (by decide)

theorem fileStream_held (file : List UInt8) : Held .file file 0 0 fileStream :=
  ⟨⟨rfl, rfl, rfl, Nat.zero_le _, rfl⟩, Mirrors.zero _ _ _ _⟩

/-- Zeros. -/
def zeros (n : Nat) : List UInt8 := List.replicate n 0

theorem zeros_length (n : Nat) : (zeros n).length = n := List.length_replicate

theorem zeros_read (chunk : Chunks) (n a k : Nat) :
    (linearRead (zeros n) chunk a k).length = min (chunk a k) (n - a) := by
  rw [linearRead_length, zeros_length]

/-- A source of whole buffers: the reads come to the position the target is rounded down to. -/
theorem stream_seek_exact_iff_whole : SeekExact (linearOps (zeros 5000) 4096) (zeros 5000)
    fileStream 4500 := by
  refine (stream_seek_exact_iff (linearOps_backend (zeros 5000) 4096 (by decide))
    (fileStream_held (zeros 5000)) (Nat.le_refl 0) rfl (by decide)).mpr ?_
  have htold : toldEnd (zeros 5000) true 0 = true := rfl
  rw [htold, SeekFits, if_neg (by decide), if_neg (by decide), if_neg (by decide)]
  intro q w hq hw
  have hstep : stepLen (zeros 5000) (fun _ n => min n 4096) 0 = 4096 := by
    rw [stepLen, zeros_read]
    rfl
  have hlands : Lands (stepLen (zeros 5000) fun _ n => min n 4096) 4096 0 4096 :=
    .next (by decide) (by rw [hstep]; decide) (by rw [hstep]; exact .here (by decide))
  have hfill : fillLen (zeros 5000) (fun _ n => min n 4096) true 4096 = 904 := by
    have hend : (zeros 5000).length ≤ 4096 + 904 := Nat.le_of_eq (zeros_length 5000)
    rw [fillLen_told, zeros_read]
    exact toppedUp_end hend streamBufferMin
  have hreaches : Reaches (fillLen (zeros 5000) (fun _ n => min n 4096) true) 4096 404 4096 :=
    .here (by rw [hfill]; decide) (by rw [hfill]; decide)
  cases hq.unique hlands
  cases hw.unique hreaches
  refine ⟨rfl, fun hend => ?_⟩
  rw [hfill] at hend
  exact absurd hend (by decide)

/-- A source of smaller chunks: the reads go past it, and the seek ends up elsewhere. -/
theorem stream_seek_misses : ¬SeekExact (linearOps (zeros 9000) 3000) (zeros 9000)
    fileStream 5000 := by
  have B := linearOps_backend (zeros 9000) 3000 (by decide)
  have hstep (a : Nat) (h : a ≤ 6000) : stepLen (zeros 9000) (fun _ n => min n 3000) a = 3000 := by
    rw [stepLen, zeros_read]
    exact Nat.min_eq_left (by omega)
  have hlands : Lands (stepLen (zeros 9000) fun _ n => min n 3000) 4096 0 6000 := by
    refine .next (by decide) (by rw [hstep 0 (by decide)]; decide) ?_
    rw [hstep 0 (by decide)]
    refine .next (by decide) (by rw [hstep 3000 (by decide)]; decide) ?_
    rw [hstep 3000 (by decide)]
    exact .here (by decide)
  have hfill : fillLen (zeros 9000) (fun _ n => min n 3000) true 6000 = 3000 := by
    have hfull : streamBufferMin ≤ 3000 := by decide
    have htop : toppedUp (zeros 9000) (fun _ n => min n 3000) 6000 streamBufferMin 3000 = 3000 :=
      toppedUp_full hfull streamBufferMin
    rw [fillLen_told, zeros_read]
    exact htop
  have hreaches : Reaches (fillLen (zeros 9000) (fun _ n => min n 3000) true) 6000 904 6000 :=
    .here (by rw [hfill]; decide) (by rw [hfill]; decide)
  have htarget : streamAlign fileStream (5000 : Nat) = (4096 : Nat) := by decide
  obtain ⟨r, s', hret, hres⟩ := B.seekLong_on (fileStream_held (zeros 9000)).stands rfl htarget
    (by decide) (by decide)
  have hret' : Returns (fun fuel => streamSeek (linearOps (zeros 9000) 3000) fuel fileStream
      (5000 : Nat)) (r, s') := hret
  rcases hres with ⟨-, hno⟩ | ⟨rfl, q, w, hq, -, hheld, htell, hbuf, -⟩
  · exact absurd hreaches (hno 6000 6000 hlands)
  · cases hq.unique hlands
    intro hexact
    have hpos := ((B.seekExact_iff hret' hheld hbuf).mp hexact).1
    omega

end MPlayer
