import MPlayer.Lib.Run
import MPlayer.Stream.Cache
import MPlayer.Stream.Backend

/-!
# The cache's invariant

The filler and the reader interleave at the points where `cache_fill` blocks
(`CacheSystem`).  `CacheInv` holds in every state they reach.  The ring holds the
file between `min_filepos` and `max_filepos`, the source stands at `max_filepos`,
and a fill that waits for its data has room for it (`FillReady`).

Each of the four steps has one lemma that says how it moves the positions and
that it keeps the invariant.  A whole `cache_fill` is a run of two steps
(`cacheFill_split`).
-/

namespace MPlayer

open Lib

variable {β : Type} {ops : StreamOps β} {type : StreamType} {file : List UInt8} {offset : β → Nat}

/-! ## The interleaving -/

/-- The cache, and the fill that waits for its data. -/
structure CacheSystem (β : Type) where
  cache : CacheVars β
  pending : Option CacheFill

/-- A step of either side. -/
inductive CacheEvent where
  | fillStart
  | fillFinish (len : Int)
  | read (size : Nat) (interrupt : Bool) (result : CacheRead)
  | seek (pos : Nat)
deriving DecidableEq, Repr

/-- A step of the filler or of the reader. -/
inductive CacheStep (ops : StreamOps β) : CacheSystem β → CacheEvent → CacheSystem β → Prop where
  | fillStart {c : CacheVars β} :
      CacheStep ops ⟨c, none⟩ .fillStart ⟨(cacheFillStart ops c).2, (cacheFillStart ops c).1⟩
  | fillFinish {c c' : CacheVars β} {f : CacheFill} {fuel : Nat} {len : Int} :
      cacheFillFinish ops fuel c f = some (len, c') →
      CacheStep ops ⟨c, some f⟩ (.fillFinish len) ⟨c', none⟩
  | read {c : CacheVars β} {p : Option CacheFill} {size : Nat} {interrupt : Bool} :
      0 < size →
      CacheStep ops ⟨c, p⟩ (.read size interrupt (cacheReadStep c size interrupt).1)
        ⟨(cacheReadStep c size interrupt).2, p⟩
  | seek {c : CacheVars β} {p : Option CacheFill} (pos : Nat) :
      CacheStep ops ⟨c, p⟩ (.seek pos) ⟨cacheReposition c pos, p⟩

/-- A cache just enabled on a stream at the start of its source. -/
def CacheOpened (type : StreamType) (offset : β → Nat) (c : CacheVars β) : Prop :=
  ∃ buffer size seekLimit stream, c = streamEnableCache buffer size seekLimit stream ∧
    Synced type offset stream ∧ stream.pos = 0 ∧ stream.readChunk ≤ 4 * c.sectorSize

/-! ## The invariant -/

/-- What `stream_enable_cache` sets once and for all. -/
structure CacheConfig (c : CacheVars β) : Prop where
  sector_pos : 0 < c.sectorSize
  size_ge : 16 * (c.sectorSize : Int) ≤ c.bufferSize
  back_eq : c.backSize = c.bufferSize / 2
  fill_eq : c.fillLimit = 8 * c.sectorSize
  seek_le : c.seekLimit ≤ c.bufferSize - c.fillLimit
  chunk_le : c.stream.readChunk ≤ 4 * c.sectorSize

/-- The data that a fill waits for has room behind `max_filepos`. -/
structure FillReady (c : CacheVars β) (f : CacheFill) : Prop where
  pos_eq : f.pos = c.maxFilepos - c.offset
  space_pos : 0 < f.space
  room : c.maxFilepos + f.space - c.minFilepos ≤ c.bufferSize
  fits : f.wraparoundCopy = false → f.pos + f.space ≤ c.bufferSize

/-- The invariant of the cache. -/
structure CacheInv (type : StreamType) (file : List UInt8) (offset : β → Nat)
    (c : CacheVars β) (pending : Option CacheFill) : Prop where
  config : CacheConfig c
  synced : Synced type offset c.stream
  pos_eq : c.stream.pos = c.maxFilepos
  min_nonneg : 0 ≤ c.minFilepos
  min_le : c.minFilepos ≤ c.maxFilepos
  offset_le : c.offset ≤ c.maxFilepos
  lt_offset : c.maxFilepos < c.offset + c.bufferSize
  room : c.maxFilepos - c.minFilepos ≤ c.bufferSize
  holds : RingHolds c.buffer c.bufferSize c.offset file c.minFilepos c.maxFilepos
  read_nonneg : 0 ≤ c.readFilepos
  ready : ∀ f, pending = some f → FillReady c f

variable {c : CacheVars β} {p : Option CacheFill}

theorem CacheOpened.inv (h : CacheOpened type offset c) : CacheInv type file offset c none := by
  obtain ⟨buffer, size, seekLimit, stream, rfl, hsync, hpos, hchunk⟩ := h
  have hss : 0 < (if stream.sectorSize ≠ 0 then stream.sectorSize else streamBufferSize) := by
    split
    · omega
    · decide
  obtain ⟨ss, hss'⟩ :
      ∃ ss, (if stream.sectorSize ≠ 0 then stream.sectorSize else streamBufferSize) = ss :=
    ⟨_, rfl⟩
  simp only [streamEnableCache, cacheInit, hss'] at hchunk hss ⊢
  have hnum : 16 * (ss : Int) ≤ ((max (size / ss) 16 : Nat) : Int) * ss :=
    Int.mul_le_mul_of_nonneg_right (by omega) (by omega)
  refine ⟨⟨hss, hnum, rfl, rfl, ?_, hchunk⟩, hsync, hpos, ?_, ?_, ?_, ?_, ?_, ?_, ?_, ?_⟩
  · simp only
    omega
  · exact Int.le_refl 0
  · exact Int.le_refl 0
  · exact Int.le_refl 0
  · simp only
    omega
  · simp only
    omega
  · exact RingHolds.empty _ _ _ _ _
  · exact Int.le_refl 0
  · intro f hf
    cases hf

/-! ## The filler's first step -/

/-- `stream_reset` keeps what the cache relies on. -/
theorem InOrderBackend.followReset (B : InOrderBackend ops type file offset) {s : Stream β}
    (h : Synced type offset s) :
    ∃ s', (if s.eof then streamReset ops s else s) = s' ∧ Synced type offset s' ∧
      s'.readChunk = s.readChunk := by
  cases s.eof with
  | true =>
    obtain ⟨hsync, -, hchunk⟩ := B.reset h
    exact ⟨_, rfl, hsync, hchunk⟩
  | false => exact ⟨_, rfl, h, rfl⟩

/-- An empty ring at the reader, over a source that stands there. -/
theorem CacheInv.restart (h : CacheInv type file offset c p) {s : Stream β}
    (hs : Synced type offset s) (hpos : s.pos = c.readFilepos)
    (hchunk : s.readChunk = c.stream.readChunk) :
    CacheInv type file offset { cacheFlush c with stream := s } none := by
  obtain ⟨hsec, hsize, hback, hfill, hseek, hch⟩ := h.config
  have hread := h.read_nonneg
  refine ⟨⟨hsec, hsize, hback, hfill, hseek, ?_⟩, hs, hpos, hread, Int.le_refl _, Int.le_refl _,
    ?_, ?_, RingHolds.empty _ _ _ _ _, hread, fun f hf => by cases hf⟩
  · show s.readChunk ≤ 4 * c.sectorSize
    rw [hchunk]
    exact hch
  · show c.readFilepos < c.readFilepos + c.bufferSize
    omega
  · show c.readFilepos - c.readFilepos ≤ c.bufferSize
    omega

/-- After following the reader, it stands in the window or a little ahead.  Either
nothing moved, or the reader had left the window and it starts anew there. -/
theorem CacheInv.follow (B : InOrderBackend ops type file offset)
    (h : CacheInv type file offset c none) :
    ∃ c', cacheFollow ops c = c' ∧ CacheInv type file offset c' none ∧
      c'.readFilepos = c.readFilepos ∧ c'.eof = c.eof ∧ c'.minFilepos ≤ c.readFilepos ∧
      (c.readFilepos ≤ c'.maxFilepos ∨ c.readFilepos < c'.maxFilepos + c'.seekLimit) ∧
      (c'.maxFilepos = c.maxFilepos ∨ (c'.maxFilepos = c.readFilepos ∧
        ¬ (c.minFilepos ≤ c.readFilepos ∧ c.readFilepos < c.maxFilepos))) := by
  have hmin := h.min_le
  have hread := h.read_nonneg
  by_cases hout : c.readFilepos < c.minFilepos ∨ c.maxFilepos < c.readFilepos
  · by_cases hfar : c.readFilepos < c.minFilepos ∨ c.maxFilepos + c.seekLimit ≤ c.readFilepos
    · obtain ⟨s, hs, hsync, hchunk⟩ := B.followReset h.synced
      obtain ⟨r, hr⟩ : ∃ r : Nat, c.readFilepos = r := ⟨c.readFilepos.toNat, by omega⟩
      obtain ⟨e, p, hseek, hp⟩ := B.seekInternal hsync r
      have heq : cacheFollow ops c
          = { cacheFlush c with stream := { s with pos := (r : Int), eof := e, priv := p } } := by
        rw [cacheFollow, if_pos hout, if_pos hfar]
        simp only [cacheFlush, hs, hr, hseek]
      refine ⟨_, heq, h.restart ⟨hsync.type_eq, by rw [hp]⟩ hr.symm hchunk, rfl, rfl,
        Int.le_refl _, Or.inl (Int.le_refl _), Or.inr ⟨rfl, by omega⟩⟩
    · exact ⟨c, by rw [cacheFollow, if_pos hout, if_neg hfar], h, rfl, rfl, by omega, by omega,
        Or.inl rfl⟩
  · exact ⟨c, by rw [cacheFollow, if_neg hout], h, rfl, rfl, by omega, by omega, Or.inl rfl⟩

/-- What `cacheSpace` grants: something, at most what is free and half the fill
limit, and without a copy not beyond the end of the ring. -/
theorem cacheSpace_spec (h : CacheConfig c) (pos space : Int) (hpos : pos < c.bufferSize)
    (hspace : c.fillLimit ≤ space) :
    0 < (cacheSpace c pos space).1 ∧ (cacheSpace c pos space).1 ≤ space ∧
      (cacheSpace c pos space).1 ≤ 4 * c.sectorSize ∧
      ((cacheSpace c pos space).2 = false → pos + (cacheSpace c pos space).1 ≤ c.bufferSize) := by
  obtain ⟨hsec, -, -, hfill, -, hch⟩ := h
  obtain ⟨chunk, hchunk⟩ : ∃ chunk : Int, (if c.stream.readChunk = 0 then 4 * (c.sectorSize : Int)
      else c.stream.readChunk) = chunk := ⟨_, rfl⟩
  have hchunk0 : 0 < chunk ∧ chunk ≤ 4 * c.sectorSize := by
    split at hchunk <;> omega
  simp only [cacheSpace, hchunk]
  by_cases hend : c.bufferSize - pos < space
  · by_cases hsector : (c.sectorSize : Int) ≤ c.bufferSize - pos
    · simp only [if_pos hend, if_pos hsector]
      omega
    · simp only [if_pos hend, if_neg hsector, Bool.true_eq_false, false_implies, and_true]
      omega
  · simp only [if_neg hend]
    omega

/-- The first step of a fill leaves the reader alone, keeps it in front of the
evicted part, and moves `max_filepos` only to a reader that had left the window. -/
theorem CacheInv.fillStart (B : InOrderBackend ops type file offset) {c : CacheVars β}
    (h : CacheInv type file offset c none) :
    ∃ p c', cacheFillStart ops c = (p, c') ∧ CacheInv type file offset c' p ∧
      c'.readFilepos = c.readFilepos ∧ c'.eof = c.eof ∧ c'.minFilepos ≤ c.readFilepos ∧
      (c'.maxFilepos = c.maxFilepos ∨ (c'.maxFilepos = c.readFilepos ∧
        ¬ (c.minFilepos ≤ c.readFilepos ∧ c.readFilepos < c.maxFilepos))) := by
  obtain ⟨c1, hfollow, h1, hread, heof, hminr, hnear, hmoved⟩ := h.follow B
  obtain ⟨back, hback⟩ : ∃ back, min (max (c.readFilepos - c1.minFilepos) 0) c1.backSize = back :=
    ⟨_, rfl⟩
  obtain ⟨newb, hnewb⟩ : ∃ newb, max (c1.maxFilepos - c.readFilepos) 0 = newb := ⟨_, rfl⟩
  have hlt := h1.lt_offset
  have hroom := h1.room
  have hmin := h1.min_le
  have hmin0 := h1.min_nonneg
  have hconf := h1.config
  have hpos : (if c1.bufferSize ≤ c1.maxFilepos - c1.offset
      then c1.maxFilepos - c1.offset - c1.bufferSize else c1.maxFilepos - c1.offset)
      = c1.maxFilepos - c1.offset := if_neg (by omega)
  simp only [cacheFillStart, hfollow, hback, hnewb, hpos]
  by_cases hfull : c1.bufferSize - (newb + back) < c1.fillLimit
  · rw [if_pos hfull]
    exact ⟨none, c1, rfl, h1, hread, heof, hminr, hmoved⟩
  · rw [if_neg hfull]
    rcases hx : cacheSpace c1 (c1.maxFilepos - c1.offset) (c1.bufferSize - (newb + back))
      with ⟨x, w⟩
    have hspace := cacheSpace_spec hconf (c1.maxFilepos - c1.offset)
      (c1.bufferSize - (newb + back)) (by omega) (by omega)
    rw [hx] at hspace
    obtain ⟨hx0, hxs, hx4, hfits⟩ := hspace
    have hback0 : 0 ≤ back := by
      have := hconf.back_eq
      have := hconf.size_ge
      omega
    have hfill := hconf.fill_eq
    have hseek := hconf.seek_le
    obtain ⟨m, hm⟩ : ∃ m, (if c1.minFilepos < c.readFilepos - (c1.bufferSize - (x + newb))
        then c.readFilepos - (c1.bufferSize - (x + newb)) else c1.minFilepos) = m := ⟨_, rfl⟩
    have hmle : c1.minFilepos ≤ m ∧ m ≤ c.readFilepos ∧ m ≤ c1.maxFilepos ∧
        c1.maxFilepos + x - m ≤ c1.bufferSize := by
      split at hm <;> omega
    obtain ⟨hm1, hmr, hmmax, hmroom⟩ := hmle
    refine ⟨_, _, rfl, ?_, hread, heof, ?_, hmoved⟩
    · simp only [hm]
      refine ⟨⟨hconf.sector_pos, hconf.size_ge, hconf.back_eq, hfill, hseek, hconf.chunk_le⟩,
        h1.synced, h1.pos_eq, ?_, hmmax, h1.offset_le, hlt, ?_, h1.holds.mono hm1,
        h1.read_nonneg, ?_⟩
      · show 0 ≤ m
        omega
      · show c1.maxFilepos - m ≤ c1.bufferSize
        omega
      · intro f hf
        cases hf
        exact ⟨rfl, hx0, hmroom, hfits⟩
    · simp only [hm]
      exact hmr

/-! ## The filler's second step -/

/-- What the second step of a fill stores, whether it copies or not. -/
theorem FillReady.write {f : CacheFill} (h : FillReady c f) {data : List UInt8}
    (hlen : (data.length : Int) ≤ f.space) (hoff : c.offset ≤ c.maxFilepos) :
    (if f.wraparoundCopy then wrapBlit c.buffer c.bufferSize.toNat f.pos.toNat data
      else blit c.buffer f.pos.toNat data)
      = wrapBlit c.buffer c.bufferSize.toNat (c.maxFilepos - c.offset).toNat data := by
  rw [← h.pos_eq]
  cases hw : f.wraparoundCopy with
  | true => rfl
  | false =>
    have hfits := h.fits hw
    have hpos := h.pos_eq
    have hspace := h.space_pos
    exact (wrapBlit_of_le (by omega)).symm

/-- The second step of a fill appends what it read and sets `eof` if that was
nothing. -/
theorem CacheInv.fillFinish (B : InOrderBackend ops type file offset) {c' : CacheVars β}
    {f : CacheFill} {fuel : Nat} {len : Int} (h : CacheInv type file offset c (some f))
    (hfin : cacheFillFinish ops fuel c f = some (len, c')) :
    CacheInv type file offset c' none ∧ c'.readFilepos = c.readFilepos ∧
      c'.minFilepos = c.minFilepos ∧ 0 ≤ len ∧ c'.maxFilepos = c.maxFilepos + len ∧
      (c'.eof = true ↔ len = 0) ∧
      ∃ data s, streamReadInternal ops fuel c.stream f.space.toNat = some (data, s) ∧
        len = data.length := by
  rw [cacheFillFinish] at hfin
  cases hread : streamReadInternal ops fuel c.stream f.space.toNat with
  | none =>
    rw [hread] at hfin
    cases hfin
  | some r =>
    obtain ⟨data, s⟩ := r
    rw [hread] at hfin
    simp only [Option.bind_eq_bind, Option.bind_some] at hfin
    obtain ⟨hpre, hlen, hsync, hspos, hchunk⟩ := B.readInternal h.synced hread
    have hready := h.ready f rfl
    have hpos := h.pos_eq
    have hoff := h.offset_le
    have hlt := h.lt_offset
    have hmin := h.min_le
    have hfpos := hready.pos_eq
    have hspace := hready.space_pos
    have hroom := hready.room
    have hspriv := h.synced.pos_eq
    have hconf := h.config
    rw [hready.write (by omega) hoff] at hfin
    have hholds := h.holds.write (hpos.symm.trans hspriv) hoff hlt hpre (by omega) hmin
    have hstream : (if f.wraparoundCopy then { s with buffer := blit s.buffer 0 data } else s)
        = { s with buffer := if f.wraparoundCopy then blit s.buffer 0 data else s.buffer } := by
      split <;> rfl
    rw [hstream] at hfin
    cases hfin
    refine ⟨?_, rfl, rfl, Int.natCast_nonneg _, rfl, ?_, data, s, rfl, rfl⟩
    · refine ⟨⟨hconf.sector_pos, hconf.size_ge, hconf.back_eq, hconf.fill_eq, hconf.seek_le, ?_⟩,
        ⟨hsync.type_eq, hsync.pos_eq⟩, ?_, h.min_nonneg, ?_, ?_, ?_, ?_, ?_, h.read_nonneg,
        fun f hf => by cases hf⟩
      · show s.readChunk ≤ 4 * c.sectorSize
        rw [hchunk]
        exact hconf.chunk_le
      · show s.pos = c.maxFilepos + data.length
        rw [hspos, hpos]
      · show c.minFilepos ≤ c.maxFilepos + data.length
        omega
      · simp only
        split <;> omega
      · simp only
        split <;> omega
      · show c.maxFilepos + data.length - c.minFilepos ≤ c.bufferSize
        omega
      · simp only
        split
        · exact hholds.turn
        · exact hholds
    · simp only [List.isEmpty_iff]
      constructor
      · intro hnil
        rw [hnil]
        rfl
      · intro hzero
        exact List.length_eq_zero_iff.mp (by omega)

/-! ## The reader's steps -/

/-- An iteration of the reader's loop outside the window moves nothing, and it ends
with `eof` if that is set. -/
theorem cacheReadStep_outside (size : Nat) (interrupt : Bool)
    (h : c.maxFilepos ≤ c.readFilepos ∨ c.readFilepos < c.minFilepos) :
    ∃ r e, cacheReadStep c size interrupt = (r, { c with eof := e }) ∧
      (r = .eof ↔ c.eof = true) ∧ (∀ bytes, r ≠ .copied bytes) ∧
      (e = true → c.eof = true ∨ interrupt = true) := by
  rw [cacheReadStep, if_pos h]
  by_cases he : c.eof = true
  · exact ⟨.eof, c.eof, if_pos he, by simp [he], by simp, Or.inl⟩
  · rw [if_neg he]
    cases interrupt with
    | true => exact ⟨.interrupted, true, rfl, by simp [he], by simp, by simp⟩
    | false => exact ⟨.waiting, c.eof, rfl, by simp [he], by simp, Or.inl⟩

/-- An iteration inside the window hands out the file's next bytes. -/
theorem CacheInv.readInside (h : CacheInv type file offset c p) {size : Nat} (interrupt : Bool)
    (hsize : 0 < size) (hin : ¬ (c.maxFilepos ≤ c.readFilepos ∨ c.readFilepos < c.minFilepos)) :
    ∃ n : Nat, 0 < n ∧ n ≤ size ∧ c.readFilepos + n ≤ c.maxFilepos ∧
      cacheReadStep c size interrupt = (.copied ((file.drop c.readFilepos.toNat).take n),
        { c with readFilepos := c.readFilepos + n }) := by
  have hoff := h.offset_le
  have hlt := h.lt_offset
  have hroom := h.room
  have hread := h.read_nonneg
  obtain ⟨r, hr⟩ : ∃ r : Nat, c.readFilepos = r := ⟨c.readFilepos.toNat, by omega⟩
  obtain ⟨k, hk⟩ : ∃ k, ringIndex c.bufferSize c.offset c.readFilepos = k := ⟨_, rfl⟩
  have hkpos : (if c.readFilepos - c.offset < 0 then c.readFilepos - c.offset + c.bufferSize
      else if c.bufferSize ≤ c.readFilepos - c.offset then c.readFilepos - c.offset - c.bufferSize
      else c.readFilepos - c.offset) = k := by
    by_cases hneg : c.readFilepos - c.offset < 0
    · rw [← ringIndex_shift, ringIndex_of_mem (by omega) (by omega)] at hk
      rw [if_pos hneg]
      omega
    · rw [ringIndex_of_mem (by omega) (by omega)] at hk
      rw [if_neg hneg, if_neg (by omega)]
      omega
  have hklt : (ringIndex c.bufferSize c.offset c.readFilepos : Int) < c.bufferSize :=
    ringIndex_lt (by omega) _ _
  obtain ⟨n, hn⟩ : ∃ n : Nat, min (min (c.maxFilepos - c.readFilepos) (c.bufferSize - k)) size
      = (n : Int) := ⟨(min (min (c.maxFilepos - c.readFilepos) (c.bufferSize - k)) size).toNat,
        by omega⟩
  refine ⟨n, by omega, by omega, by omega, ?_⟩
  have hbytes := h.holds.read (p := r) (k := k) (n := n) (by omega)
    (by rw [← hr]; exact hk) (by omega) (by omega)
  rw [cacheReadStep, if_neg hin]
  simp only [hkpos, hn, Int.toNat_natCast]
  rw [hbytes, hr, Int.toNat_natCast]

/-- Moving the reader, or setting `eof`, keeps the invariant. -/
theorem CacheInv.reader (h : CacheInv type file offset c p) {r : Int} (hr : 0 ≤ r) (e : Bool) :
    CacheInv type file offset { c with readFilepos := r, eof := e } p := by
  obtain ⟨hconf, hsync, hpos, hmin0, hmin, hoff, hlt, hroom, hholds, -, hready⟩ := h
  exact ⟨⟨hconf.sector_pos, hconf.size_ge, hconf.back_eq, hconf.fill_eq, hconf.seek_le,
    hconf.chunk_le⟩, hsync, hpos, hmin0, hmin, hoff, hlt, hroom, hholds, hr,
    fun f hf => ⟨(hready f hf).pos_eq, (hready f hf).space_pos, (hready f hf).room,
      (hready f hf).fits⟩⟩

theorem CacheInv.readStep (h : CacheInv type file offset c p) {size : Nat} (interrupt : Bool)
    (hsize : 0 < size) : CacheInv type file offset (cacheReadStep c size interrupt).2 p := by
  have hread := h.read_nonneg
  by_cases hin : c.maxFilepos ≤ c.readFilepos ∨ c.readFilepos < c.minFilepos
  · obtain ⟨r, e, heq, -⟩ := cacheReadStep_outside size interrupt hin
    rw [heq]
    exact h.reader hread e
  · obtain ⟨n, -, -, -, heq⟩ := h.readInside interrupt hsize hin
    rw [heq]
    exact h.reader (r := c.readFilepos + n) (by omega) c.eof

theorem CacheInv.reposition (h : CacheInv type file offset c p) (pos : Nat) :
    CacheInv type file offset (cacheReposition c pos) p := by
  refine h.reader ?_ false
  rw [Int.tdiv_eq_ediv_of_nonneg (Int.natCast_nonneg _)]
  exact Int.mul_nonneg (Int.ediv_nonneg (Int.natCast_nonneg _) (Int.natCast_nonneg _))
    (Int.natCast_nonneg _)

/-! ## Runs -/

theorem CacheInv.step (B : InOrderBackend ops type file offset) {s t : CacheSystem β}
    {e : CacheEvent} (h : CacheInv type file offset s.cache s.pending)
    (hst : CacheStep ops s e t) : CacheInv type file offset t.cache t.pending := by
  cases hst with
  | fillStart =>
    obtain ⟨p, c', heq, h', -⟩ := h.fillStart B
    rw [heq]
    exact h'
  | fillFinish hfin => exact (h.fillFinish B hfin).1
  | read hsize => exact h.readStep _ hsize
  | seek pos => exact h.reposition pos

/-- A whole `cache_fill` is a run of the two steps of the filler. -/
theorem cacheFill_split {c' : CacheVars β} {fuel : Nat} {len : Int}
    (h : cacheFill ops fuel c = some (len, c')) :
    ∃ es, Run (CacheStep ops) ⟨c, none⟩ es ⟨c', none⟩ := by
  have hstart := @CacheStep.fillStart _ ops c
  rcases hfs : cacheFillStart ops c with ⟨p, c1⟩
  rw [cacheFill, hfs] at h
  rw [hfs] at hstart
  cases p with
  | none =>
    cases h
    exact ⟨_, Run.single hstart⟩
  | some f => exact ⟨_, (Run.single hstart).tail (.fillFinish h)⟩

end MPlayer
