import MPlayer.Stream.CacheInvariant

/-!
# The end of the file in a cache

The filler and the reader both write `eof`.  A seek clears it, and a fill that
delivered nothing sets it, even if the fill was begun for the reader's old
position and the reader has moved on.  A seek is *safe* (`SeekSafe`) unless it
overtakes a fill at the end of the file and leaves the window for a position
before the end.

With safe seeks the reader meets `eof` only at the end of the file
(`cache_eof_exact`).  After any other seek the pending fill sets `eof` under the
reader, whose next read then ends although the file goes on.
-/

namespace MPlayer

open Lib

variable {β : Type} {ops : StreamOps β} {type : StreamType} {file : List UInt8} {offset : β → Nat}

/-- Where a seek to `pos` puts the reader. -/
def seekTarget (c : CacheVars β) (pos : Nat) : Int := (cacheReposition c pos).readFilepos

/-- The seek does not overtake a fill at the end of the file, or it goes to the end
itself or stays in the window. -/
def SeekSafe (file : List UInt8) (s : CacheSystem β) (pos : Nat) : Prop :=
  s.pending = none ∨ s.cache.maxFilepos < file.length ∨
    (file.length : Int) ≤ seekTarget s.cache pos ∨
    (s.cache.minFilepos ≤ seekTarget s.cache pos ∧ seekTarget s.cache pos < s.cache.maxFilepos)

/-- The reader is not interrupted. -/
def Uninterrupted : CacheEvent → Prop
  | .read _ interrupt _ => interrupt = false
  | _ => True

/-- A step without interrupts whose seeks are safe. -/
def SafeStep (ops : StreamOps β) (file : List UInt8) (s : CacheSystem β) (e : CacheEvent)
    (t : CacheSystem β) : Prop :=
  CacheStep ops s e t ∧ Uninterrupted e ∧ ∀ pos, e = .seek pos → SeekSafe file s pos

/-- A cache just enabled, with its filler idle. -/
def SystemOpened (type : StreamType) (offset : β → Nat) (s : CacheSystem β) : Prop :=
  CacheOpened type offset s.cache ∧ s.pending = none

/-! ## The invariant -/

/-- The reader is at the end of the file or in the window. -/
def ReaderFed (file : List UInt8) (c : CacheVars β) : Prop :=
  (file.length : Int) ≤ c.readFilepos ∨
    (c.minFilepos ≤ c.readFilepos ∧ c.readFilepos < c.maxFilepos)

/-- If `eof` is set, or a fill will set it, then the window reaches the end of the
file and the reader still has data or has read everything. -/
structure EofInv (file : List UInt8) (c : CacheVars β) (pending : Option CacheFill) : Prop where
  eof_end : c.eof = true → (file.length : Int) ≤ c.maxFilepos
  eof_fed : c.eof = true → ReaderFed file c
  pending_fed : pending ≠ none → (file.length : Int) ≤ c.maxFilepos → ReaderFed file c

theorem EofInv.opened {c : CacheVars β} (h : CacheOpened type offset c) : EofInv file c none := by
  obtain ⟨buffer, size, seekLimit, stream, rfl, -⟩ := h
  exact ⟨fun he => (by cases he), fun he => (by cases he), fun hp => absurd rfl hp⟩

theorem EofInv.fillStart (B : InOrderBackend ops type file offset) {c : CacheVars β}
    (hinv : CacheInv type file offset c none) (h : EofInv file c none) :
    EofInv file (cacheFillStart ops c).2 (cacheFillStart ops c).1 := by
  obtain ⟨p, c', heq, -, hread, heof, hmin, hmoved⟩ := hinv.fillStart B
  rw [heq]
  have hend := h.eof_end
  have hfed := h.eof_fed
  unfold ReaderFed at hfed
  refine ⟨fun he => ?_, fun he => ?_, fun _ hle => ?_⟩
  · have hend := hend (heof ▸ he)
    have hfed := hfed (heof ▸ he)
    simp only
    omega
  · have hfed := hfed (heof ▸ he)
    unfold ReaderFed
    simp only
    omega
  · unfold ReaderFed
    simp only at hle ⊢
    omega

/-- Over a seekable backend a fill gets nothing only at the end of the file. -/
theorem CacheInv.fill_nothing (B : SeekableBackend ops type file offset) {c c' : CacheVars β}
    {f : CacheFill} {fuel : Nat} {len : Int} (h : CacheInv type file offset c (some f))
    (hfin : cacheFillFinish ops fuel c f = some (len, c')) :
    len = 0 ↔ (file.length : Int) ≤ c.maxFilepos := by
  obtain ⟨-, -, -, -, -, -, data, s, hread, hlen⟩ := h.fillFinish B.toInOrderBackend hfin
  have hspace := (h.ready f rfl).space_pos
  cases fuel with
  | zero => cases hread
  | succ fuel =>
    obtain ⟨data', e, p, hread', -, -, -, hend⟩ :=
      B.readInternal fuel h.synced (n := f.space.toNat) (by omega)
    rw [hread'] at hread
    cases hread
    have hpos := h.pos_eq
    have hsync := h.synced.pos_eq
    rw [hlen, ← hpos, hsync]
    constructor
    · intro hzero
      have := hend.mp (List.length_eq_zero_iff.mp (by omega))
      omega
    · intro hle
      rw [hend.mpr (by omega)]
      rfl

theorem EofInv.fillFinish (B : SeekableBackend ops type file offset) {c c' : CacheVars β}
    {f : CacheFill} {fuel : Nat} {len : Int} (hinv : CacheInv type file offset c (some f))
    (h : EofInv file c (some f)) (hfin : cacheFillFinish ops fuel c f = some (len, c')) :
    EofInv file c' none := by
  obtain ⟨-, hread, hmin, hlen, hmax, heof, -⟩ := hinv.fillFinish B.toInOrderBackend hfin
  have hnothing := hinv.fill_nothing B hfin
  refine ⟨fun he => ?_, fun he => ?_, fun hp => absurd rfl hp⟩
  · have := hnothing.mp (heof.mp he)
    omega
  · have hzero := heof.mp he
    have hfed := h.pending_fed (by simp) (hnothing.mp hzero)
    unfold ReaderFed at hfed ⊢
    rw [hread, hmin, hmax, hzero, Int.add_zero]
    exact hfed

theorem EofInv.read {c : CacheVars β} {p : Option CacheFill}
    (hinv : CacheInv type file offset c p) (h : EofInv file c p) {size : Nat} (hsize : 0 < size) :
    EofInv file (cacheReadStep c size false).2 p := by
  obtain ⟨hend, hfed, hpend⟩ := h
  by_cases hin : c.maxFilepos ≤ c.readFilepos ∨ c.readFilepos < c.minFilepos
  · obtain ⟨r, e, heq, -, -, he⟩ := cacheReadStep_outside size false hin
    rw [heq]
    have heof : e = true → c.eof = true := by
      intro ht
      rcases he ht with h | h
      · exact h
      · cases h
    exact ⟨fun ht => hend (heof ht), fun ht => hfed (heof ht), hpend⟩
  · obtain ⟨n, hn, -, hmax, heq⟩ := hinv.readInside false hsize hin
    rw [heq]
    unfold ReaderFed at hfed hpend
    refine ⟨hend, fun ht => ?_, fun hp hle => ?_⟩
    · have hend := hend ht
      have hfed := hfed ht
      unfold ReaderFed
      simp only
      omega
    · have hfed := hpend hp hle
      unfold ReaderFed
      simp only at hle ⊢
      omega

theorem EofInv.seek {c : CacheVars β} {p : Option CacheFill} {pos : Nat}
    (hsafe : SeekSafe file ⟨c, p⟩ pos) : EofInv file (cacheReposition c pos) p := by
  refine ⟨fun he => (by cases he), fun he => (by cases he), fun hp hle => ?_⟩
  rcases hsafe with hnone | hlt | htarget
  · exact absurd hnone hp
  · exact absurd hle (Int.not_le.mpr hlt)
  · exact htarget

theorem EofInv.step (B : SeekableBackend ops type file offset) {s t : CacheSystem β}
    {e : CacheEvent} (hinv : CacheInv type file offset s.cache s.pending)
    (h : EofInv file s.cache s.pending) (hst : SafeStep ops file s e t) :
    EofInv file t.cache t.pending := by
  obtain ⟨hstep, hint, hsafe⟩ := hst
  cases hstep with
  | fillStart => exact h.fillStart B.toInOrderBackend hinv
  | fillFinish hfin => exact h.fillFinish B hinv hfin
  | read hsize =>
    cases hint
    exact h.read hinv hsize
  | seek pos => exact EofInv.seek (hsafe pos rfl)

/-! ## False ends -/

/-- The reader's next iteration can end with `eof` before the end of the file. -/
def FalseEof (ops : StreamOps β) (file : List UInt8) (s : CacheSystem β) : Prop :=
  ∃ size t, CacheStep ops s (.read size false .eof) t ∧ s.cache.readFilepos < file.length

theorem CacheInv.not_falseEof {s : CacheSystem β}
    (hinv : CacheInv type file offset s.cache s.pending) (h : EofInv file s.cache s.pending) :
    ¬ FalseEof ops file s := by
  rintro ⟨size, t, hst, hlt⟩
  generalize he : CacheEvent.read size false .eof = e at hst
  cases hst with
  | fillStart => cases he
  | fillFinish _ => cases he
  | seek _ => cases he
  | @read c p size' interrupt hsize =>
    injection he with hsz hint hres
    subst hsz hint
    by_cases hin : c.maxFilepos ≤ c.readFilepos ∨ c.readFilepos < c.minFilepos
    · obtain ⟨r, e, heq, heof, -⟩ :=
        cacheReadStep_outside size false hin
      rw [heq] at hres
      have hfed := h.eof_fed (heof.mp hres.symm)
      unfold ReaderFed at hfed
      simp only at hfed hlt
      omega
    · obtain ⟨n, -, -, -, heq⟩ := hinv.readInside false hsize hin
      rw [heq] at hres
      cases hres

/-- The pending fill sets `eof` under a reader that an unsafe seek has moved. -/
theorem CacheInv.falseEof_of_unsafe (B : SeekableBackend ops type file offset)
    {s : CacheSystem β} (hinv : CacheInv type file offset s.cache s.pending) {pos : Nat}
    (hbad : ¬ SeekSafe file s pos) :
    ∃ t, CacheStep ops ⟨cacheReposition s.cache pos, s.pending⟩ (.fillFinish 0) t ∧
      FalseEof ops file t := by
  obtain ⟨c, p⟩ := s
  cases p with
  | none => exact absurd (Or.inl rfl) hbad
  | some f =>
    have hinv' : CacheInv type file offset (cacheReposition c pos) (some f) :=
      hinv.reposition pos
    obtain ⟨data, e, q, hread, -⟩ := B.readInternal 0 hinv'.synced (n := f.space.toNat)
      (by have := (hinv'.ready f rfl).space_pos; omega)
    obtain ⟨len, c', hfin⟩ : ∃ len c',
        cacheFillFinish ops 1 (cacheReposition c pos) f = some (len, c') := by
      rw [cacheFillFinish, hread]
      exact ⟨_, _, rfl⟩
    have hnothing := hinv'.fill_nothing B hfin
    obtain ⟨hinv2, hread', hmin, -, hmax, heof, -⟩ :=
      hinv'.fillFinish B.toInOrderBackend hfin
    have hmax0 : (cacheReposition c pos).maxFilepos = c.maxFilepos := rfl
    have hmin0 : (cacheReposition c pos).minFilepos = c.minFilepos := rfl
    unfold SeekSafe seekTarget at hbad
    simp only [reduceCtorEq, false_or, not_or] at hbad
    obtain ⟨hend, hbefore, hout⟩ := hbad
    have hzero : len = 0 := hnothing.mpr (by omega)
    subst hzero
    refine ⟨⟨c', none⟩, .fillFinish hfin, 1, ?_⟩
    obtain ⟨r, e', heq, hr, -⟩ := cacheReadStep_outside (c := c') 1 false (by omega)
    have hres : (cacheReadStep c' 1 false).1 = .eof := by
      rw [heq]
      exact hr.mpr (heof.mpr rfl)
    have hst : CacheStep ops ⟨c', none⟩ (.read 1 false (cacheReadStep c' 1 false).1)
        ⟨(cacheReadStep c' 1 false).2, none⟩ := .read Nat.one_pos
    rw [hres] at hst
    exact ⟨_, hst, by simp only; omega⟩

/-- With safe seeks and no interrupts the reader meets `eof` only at the end of the
file, and any other seek lets it meet `eof` before. -/
theorem cache_eof_exact (B : SeekableBackend ops type file offset) :
    (∀ s, Reachable (SafeStep ops file) (SystemOpened type offset) s → ¬ FalseEof ops file s) ∧
      ∀ s pos, Reachable (CacheStep ops) (SystemOpened type offset) s → ¬ SeekSafe file s pos →
        ∃ t, Run (CacheStep ops) s [.seek pos, .fillFinish 0] t ∧ FalseEof ops file t := by
  constructor
  · intro s hs
    obtain ⟨hinv, heof⟩ := hs.invariant
      (I := fun s => CacheInv type file offset s.cache s.pending ∧ EofInv file s.cache s.pending)
      (fun s h0 => by
        obtain ⟨c, p⟩ := s
        obtain ⟨hopened, rfl⟩ := h0
        exact ⟨hopened.inv, EofInv.opened hopened⟩)
      (fun s e t h hst => ⟨h.1.step B.toInOrderBackend hst.1, h.2.step B h.1 hst⟩)
    exact hinv.not_falseEof heof
  · intro s pos hs hbad
    have hinv := hs.invariant (I := fun s => CacheInv type file offset s.cache s.pending)
      (fun s h0 => by
        obtain ⟨c, p⟩ := s
        obtain ⟨hopened, rfl⟩ := h0
        exact hopened.inv)
      (fun s e t h hst => h.step B.toInOrderBackend hst)
    obtain ⟨t, hst, hfalse⟩ := hinv.falseEof_of_unsafe B hbad
    exact ⟨t, (Run.single (.seek pos)).tail hst, hfalse⟩

/-! ## A false end -/

/-- A file one byte longer than a sector. -/
def raceFile : List UInt8 := List.replicate 4097 0

/-- Its cache, with the reader sent to the last sector. -/
def raceCache : CacheVars Nat :=
  cacheReposition (streamEnableCache (fun _ => 0) 0 0 fileStream) (4096 : Nat)

/-- A read can meet `eof` before the end of the file: the filler has read the last
sector and tries to go on when the reader seeks back to the start. -/
theorem cache_eof_false :
    ¬ ∀ s, Reachable (fun s e t => CacheStep (fileOps raceFile 0) s e t ∧ Uninterrupted e)
      (SystemOpened .file id) s → ¬ FalseEof (fileOps raceFile 0) raceFile s := by
  intro h
  have hopened : SystemOpened .file id ⟨streamEnableCache (fun _ => 0) 0 0 fileStream, none⟩ :=
    ⟨⟨_, _, _, _, rfl, ⟨rfl, rfl⟩, rfl, by decide⟩, rfl⟩
  obtain ⟨f, c1, h1⟩ : ∃ f c1, cacheFillStart (fileOps raceFile 0) raceCache = (some f, c1) :=
    ⟨_, _, rfl⟩
  have hsome : (cacheFill (fileOps raceFile 0) 1 raceCache).isSome = true := by decide +kernel
  obtain ⟨⟨len, c2⟩, hfill⟩ := Option.isSome_iff_exists.mp hsome
  have h2 : cacheFillFinish (fileOps raceFile 0) 1 c1 f = some (len, c2) := by
    rw [cacheFill, h1] at hfill
    exact hfill
  have hfacts : ((cacheFill (fileOps raceFile 0) 1 raceCache).map fun r =>
      let t := cacheFillStart (fileOps raceFile 0) r.2
      (t.1.isSome, t.2.minFilepos, t.2.maxFilepos)) = some (true, 4096, 4097) := by
    decide +kernel
  rw [hfill] at hfacts
  rcases h3 : cacheFillStart (fileOps raceFile 0) c2 with ⟨p, c3⟩
  simp only [Option.map_some, h3, Option.some.injEq, Prod.mk.injEq] at hfacts
  obtain ⟨hp, hmin, hmax⟩ := hfacts
  have hstart1 := @CacheStep.fillStart _ (fileOps raceFile 0) raceCache
  have hstart2 := @CacheStep.fillStart _ (fileOps raceFile 0) c2
  rw [h1] at hstart1
  rw [h3] at hstart2
  have hbad : ¬ SeekSafe raceFile ⟨c3, p⟩ 0 := by
    have htarget : seekTarget c3 0 = 0 := by simp [seekTarget, cacheReposition]
    have hlen : raceFile.length = 4097 := by rw [raceFile, List.length_replicate]
    have hpend : p ≠ none := by
      intro hnone
      rw [hnone] at hp
      cases hp
    unfold SeekSafe
    simp only [htarget, hlen, hpend, false_or]
    omega
  have hinv : CacheInv .file raceFile id c3 p :=
    ((((hopened.1.inv.reposition 4096).step (s := ⟨_, none⟩)
      (fileBackend raceFile 0).toInOrderBackend hstart1).step
        (fileBackend raceFile 0).toInOrderBackend (.fillFinish h2)).step
          (fileBackend raceFile 0).toInOrderBackend hstart2)
  obtain ⟨t, hst, hfalse⟩ := CacheInv.falseEof_of_unsafe (s := ⟨c3, p⟩) (fileBackend raceFile 0)
    hinv hbad
  have hreach : Reachable (fun s e t => CacheStep (fileOps raceFile 0) s e t ∧ Uninterrupted e)
      (SystemOpened .file id) ⟨streamEnableCache (fun _ => 0) 0 0 fileStream, none⟩ :=
    ⟨_, [], hopened, .refl⟩
  have hpending := (((hreach.extend ⟨.seek 4096, trivial⟩).extend ⟨hstart1, trivial⟩).extend
    ⟨.fillFinish h2, trivial⟩).extend ⟨hstart2, trivial⟩
  exact h t ((hpending.extend ⟨.seek 0, trivial⟩).extend ⟨hst, trivial⟩) hfalse

end MPlayer
