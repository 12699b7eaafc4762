import MPlayer.Mov.Basic

/-!
# The tables of a track

Every array of a track is as long as its size says, whatever atoms have been read.  A track whose
atoms hold one table of each kind, in any order, ends up with these tables.
-/

namespace MPlayer

open Lib

variable {α : Type}

/-! ## Integers -/

theorem cInt_of_lt {n : Nat} (h : n < 0x80000000) : cInt n = n := by
  unfold cInt
  omega

theorem cInt_zero : cInt (0 : Nat) = 0 := cInt_of_lt (by omega)

theorem cInt_lt (n : Int) : cInt n < 0x80000000 := by
  unfold cInt
  omega

/-! ## Arrays with a size -/

/-- `n` is the length of the array, and is an `int`. -/
structure Fits (xs : List α) (n : Int) : Prop where
  size : n = xs.length
  isInt : xs.length < 0x80000000

theorem Fits.nil : Fits ([] : List α) 0 where
  size := rfl
  isInt := by
    rw [List.length_nil]
    omega

variable {n : Int} {xs : List α} {len : UInt32}

theorem Fits.callocArray (heap : Heap) (hn : n < 0x80000000) (zero : α) :
    Fits (callocArray heap n zero).1 (callocArray heap n zero).2 := by
  unfold MPlayer.callocArray
  split
  · rename_i hmet
    refine ⟨?_, ?_⟩
    · rw [List.length_replicate, Int.toNat_of_nonneg hmet.1]
    · rw [List.length_replicate]
      omega
  · exact Fits.nil

theorem Fits.each (h : Fits xs n) (f : Nat → α → α) :
    Lib.each turns n f xs = .ok (xs.mapIdx f) := by
  refine each_eq h.size ?_
  rw [turns]
  exact h.isInt

theorem Fits.of_length {β : Type} {ys : List β} (h : Fits xs n) (hlen : ys.length = xs.length) :
    Fits ys n where
  size := by
    rw [hlen]
    exact h.size
  isInt := by
    rw [hlen]
    exact h.isInt

theorem Fits.mapIdx (h : Fits xs n) (f : Nat → α → α) :
    Fits (xs.mapIdx f) n := h.of_length List.length_mapIdx

/-- What a met request is filled with. -/
theorem callocArray_fill {heap : Heap} (hheap : ∀ n, heap n = true)
    (hlen : len.toNat < 0x80000000) (zero : α) (f : Nat → α → α) :
    (callocArray heap (cInt len.toNat) zero).1.mapIdx f
      = (List.range len.toNat).map fun i => f i zero := by
  unfold callocArray
  rw [cInt_of_lt hlen, if_pos ⟨Int.natCast_nonneg _, hheap _⟩]
  refine List.ext_getElem? fun k => ?_
  rw [List.getElem?_mapIdx, List.getElem?_map, List.getElem?_replicate, Int.toNat_natCast]
  by_cases hk : k < len.toNat
  · rw [if_pos hk, List.getElem?_range hk]
    rfl
  · rw [if_neg hk, List.getElem?_eq_none (by rw [List.length_range]; omega)]
    rfl

/-! ## Tracks -/

/-- Every array of the track has its size. -/
structure MovTrack.Sized (t : MovTrack) : Prop where
  samples : Fits t.samples t.samplesSize
  chunks : Fits t.chunks t.chunksSize
  chunkmap : Fits t.chunkmap t.chunkmapSize
  durmap : Fits t.durmap t.durmapSize
  editlist : Fits t.editlist t.editlistSize

theorem MovTrack.Sized.zero : MovTrack.zero.Sized := ⟨.nil, .nil, .nil, .nil, .nil⟩

variable {t t' : MovTrack}

theorem MovTrack.Sized.withSamples (h : t.Sized) {xs : List MovSample} (hxs : Fits xs n)
    (size : Int) :
    ({ t with samplesize := size, samples := xs, samplesSize := n } : MovTrack).Sized :=
  { h with samples := hxs }

theorem MovTrack.Sized.withChunks (h : t.Sized) {xs : List MovChunk} (hxs : Fits xs t.chunksSize) :
    ({ t with chunks := xs } : MovTrack).Sized := { h with chunks := hxs }

theorem MovTrack.Sized.withChunkmap (h : t.Sized) {xs : List MovChunkmap} (hxs : Fits xs n) :
    ({ t with chunkmap := xs, chunkmapSize := n } : MovTrack).Sized :=
  { h with chunkmap := hxs }

theorem MovTrack.Sized.withDurmap (h : t.Sized) {xs : List MovDurmap} (hxs : Fits xs n) :
    ({ t with durmap := xs, durmapSize := n } : MovTrack).Sized :=
  { h with durmap := hxs }

theorem MovTrack.Sized.withEditlist (h : t.Sized) {xs : List MovEditlist} (hxs : Fits xs n) :
    ({ t with editlist := xs, editlistSize := n } : MovTrack).Sized :=
  { h with editlist := hxs }

theorem MovTrack.Sized.extendChunks (h : t.Sized) (heap : Heap) {len : Int}
    (hlen : len < 0x80000000) : (t.extendChunks heap len).Sized := by
  unfold MovTrack.extendChunks
  split
  · exact { h with chunks := Fits.callocArray heap hlen MovChunk.zero }
  · exact h

/-- The tables of an atom. -/
def MovAtom.stts? : MovAtom → Option (List MovDurmap)
  | .stts len rows => some ((List.range len.toNat).map rows)
  | _ => none

def MovAtom.stsc? : MovAtom → Option (List MovChunkmap)
  | .stsc len rows => some ((List.range len.toNat).map rows)
  | _ => none

/-- The size that all samples have, if it is not 0, and the size of each. -/
def MovAtom.stsz? : MovAtom → Option (UInt32 × List UInt32)
  | .stsz ss entries sizes =>
    some (ss, (List.range entries.toNat).map fun i => if ss = 0 then sizes i else ss)
  | _ => none

def MovAtom.offsets? : MovAtom → Option (List Int)
  | .stco len offsets => some ((List.range len.toNat).map fun i => ((offsets i).toNat : Int))
  | .co64 len offsets => some ((List.range len.toNat).map fun i => offT (offsets i).toNat)
  | _ => none

/-- What an atom does to the tables of a track. -/
structure MovTrack.Reads (t : MovTrack) (a : MovAtom) (t' : MovTrack) : Prop where
  durmap : a.stts? = none → t'.durmap = t.durmap
  stts : ∀ rows, a.stts? = some rows → rows.length < 0x80000000 → t'.durmap = rows
  chunkmap : a.stsc? = none → t'.chunkmap = t.chunkmap
  stsc : ∀ rows, a.stsc? = some rows → rows.length < 0x80000000 →
    t'.chunkmap = rows.map fun m => { m with first := m.first - 1 }
  samples : a.stsz? = none → t'.samplesize = t.samplesize ∧ t'.samples = t.samples
  stsz : ∀ ss sizes, a.stsz? = some (ss, sizes) → sizes.length < 0x80000000 → t.samples = [] →
    t'.samplesize = cInt ss.toNat ∧ t'.samples = if ss = 0 then sizes.map fun z => ⟨0, z, 0⟩ else []
  chunks : a.offsets? = none → t'.chunks = t.chunks
  offsets : ∀ ps, a.offsets? = some ps → ps.length < 0x80000000 → t.chunks = [] →
    t'.chunks = ps.map fun p => ⟨0, 0, 0, p⟩

/-- An atom without a table leaves the tables alone. -/
theorem MovTrack.Reads.other {a : MovAtom}
    (ha : a.stts? = none ∧ a.stsc? = none ∧ a.stsz? = none ∧ a.offsets? = none)
    (hdurmap : t'.durmap = t.durmap) (hchunkmap : t'.chunkmap = t.chunkmap)
    (hsamplesize : t'.samplesize = t.samplesize) (hsamples : t'.samples = t.samples)
    (hchunks : t'.chunks = t.chunks) : t.Reads a t' where
  durmap _ := hdurmap
  stts rows h := by rw [ha.1] at h; cases h
  chunkmap _ := hchunkmap
  stsc rows h := by rw [ha.2.1] at h; cases h
  samples _ := ⟨hsamplesize, hsamples⟩
  stsz ss sizes h := by rw [ha.2.2.1] at h; cases h
  chunks _ := hchunks
  offsets ps h := by rw [ha.2.2.2] at h; cases h

theorem MovTrack.Reads.ofStts {rows : Nat → MovDurmap} {xs : List MovDurmap}
    (hxs : len.toNat < 0x80000000 → xs = (List.range len.toNat).map rows) :
    t.Reads (.stts len rows) { t with durmap := xs, durmapSize := n } where
  durmap := nofun
  stts rows' hrows hlen := by
    cases hrows
    rw [List.length_map, List.length_range] at hlen
    exact hxs hlen
  chunkmap _ := rfl
  stsc := nofun
  samples _ := ⟨rfl, rfl⟩
  stsz := nofun
  chunks _ := rfl
  offsets := nofun

theorem MovTrack.Reads.ofStsc {len : UInt32} {rows : Nat → MovChunkmap} {xs : List MovChunkmap}
    {n : Int} (hxs : len.toNat < 0x80000000 →
      xs = (List.range len.toNat).map fun i => { rows i with first := (rows i).first - 1 }) :
    t.Reads (.stsc len rows) { t with chunkmap := xs, chunkmapSize := n } where
  durmap _ := rfl
  stts := nofun
  chunkmap := nofun
  stsc rows' hrows hlen := by
    cases hrows
    rw [List.length_map, List.length_range] at hlen
    rw [List.map_map]
    exact hxs hlen
  samples _ := ⟨rfl, rfl⟩
  stsz := nofun
  chunks _ := rfl
  offsets := nofun

theorem MovTrack.Reads.ofStsz {ss entries : UInt32} {sizes : Nat → UInt32} {xs : List MovSample}
    {n : Int} (hxs : entries.toNat < 0x80000000 → t.samples = [] →
      xs = if ss = 0 then (List.range entries.toNat).map fun i => ⟨0, sizes i, 0⟩ else []) :
    t.Reads (.stsz ss entries sizes)
      { t with samplesize := cInt ss.toNat, samples := xs, samplesSize := n } where
  durmap _ := rfl
  stts := nofun
  chunkmap _ := rfl
  stsc := nofun
  samples := nofun
  stsz ss' sizes' hsizes hlen hnil := by
    cases hsizes
    rw [List.length_map, List.length_range] at hlen
    refine ⟨rfl, ?_⟩
    rw [hxs hlen hnil]
    split
    · rw [List.map_map]
      rfl
    · rfl
  chunks _ := rfl
  offsets := nofun

theorem MovTrack.Reads.ofOffsets {a : MovAtom} {u : MovTrack} {xs : List MovChunk}
    (ha : a.stts? = none ∧ a.stsc? = none ∧ a.stsz? = none ∧ a.offsets? ≠ none)
    (hu : u.durmap = t.durmap ∧ u.chunkmap = t.chunkmap ∧ u.samplesize = t.samplesize ∧
      u.samples = t.samples)
    (hxs : ∀ ps, a.offsets? = some ps → ps.length < 0x80000000 → t.chunks = [] →
      xs = ps.map fun p => ⟨0, 0, 0, p⟩) : t.Reads a { u with chunks := xs } where
  durmap _ := hu.1
  stts rows h := by rw [ha.1] at h; cases h
  chunkmap _ := hu.2.1
  stsc rows h := by rw [ha.2.1] at h; cases h
  samples _ := hu.2.2
  stsz ss sizes h := by rw [ha.2.2.1] at h; cases h
  chunks h := absurd h ha.2.2.2
  offsets := hxs

theorem MovTrack.extendChunks_of_lt {heap : Heap} (h : t.chunksSize < n) :
    (t.extendChunks heap n).chunks = (callocArray heap n MovChunk.zero).1 := by
  unfold MovTrack.extendChunks
  rw [if_pos h]

theorem MovTrack.extendChunks_of_le {heap : Heap} (h : n ≤ t.chunksSize) :
    t.extendChunks heap n = t := by
  unfold MovTrack.extendChunks
  rw [if_neg (by omega)]

/-- The chunk table that an offset table gives. -/
theorem MovTrack.Sized.extendChunks_fill (h : t.Sized) {heap : Heap} (hheap : ∀ n, heap n = true)
    (hlen : len.toNat < 0x80000000) (hchunks : t.chunks = []) (f : Nat → MovChunk → MovChunk) :
    (t.extendChunks heap (cInt len.toNat)).chunks.mapIdx f
      = (List.range len.toNat).map fun i => f i MovChunk.zero := by
  have hsize : t.chunksSize = 0 := by
    rw [h.chunks.size, hchunks]
    rfl
  have hint : cInt len.toNat = len.toNat := cInt_of_lt hlen
  cases hn : len.toNat with
  | zero =>
    rw [hn] at hint
    rw [MovTrack.extendChunks_of_le (by rw [hint, hsize]; exact Int.le_refl 0), hchunks]
    rfl
  | succ n =>
    have hfill := callocArray_fill hheap hlen MovChunk.zero f
    rw [hn] at hint hfill
    rw [MovTrack.extendChunks_of_lt (by rw [hint, hsize]; omega)]
    exact hfill

/-- What an atom that may extend the chunk table does to the other fields. -/
theorem MovTrack.extendChunks_other (t : MovTrack) (heap : Heap) (n : Int) :
    (t.extendChunks heap n).durmap = t.durmap ∧ (t.extendChunks heap n).chunkmap = t.chunkmap ∧
      (t.extendChunks heap n).samplesize = t.samplesize ∧
      (t.extendChunks heap n).samples = t.samples := by
  unfold MovTrack.extendChunks
  split
  · exact ⟨rfl, rfl, rfl, rfl⟩
  · exact ⟨rfl, rfl, rfl, rfl⟩

/-- An atom read keeps every array within its size. -/
theorem MovTrack.Sized.lschunksIntrak {may : Halt → Prop} (h : t.Sized) (heap : Heap)
    (a : MovAtom) : Gives may (lschunksIntrak heap t a) fun t' =>
      t'.Sized ∧ ((∀ n, heap n = true) → t.Reads a t') := by
  have hnone {a : MovAtom} (h1 : a.stts? = none) (h2 : a.stsc? = none) (h3 : a.stsz? = none)
      (h4 : a.offsets? = none) := And.intro h1 (And.intro h2 (And.intro h3 h4))
  cases a with
  | mdhd timescale =>
    exact ⟨{ h with }, fun _ => .other (hnone rfl rfl rfl rfl) rfl rfl rfl rfl rfl⟩
  | vmhd => exact ⟨{ h with }, fun _ => .other (hnone rfl rfl rfl rfl) rfl rfl rfl rfl rfl⟩
  | smhd => exact ⟨{ h with }, fun _ => .other (hnone rfl rfl rfl rfl) rfl rfl rfl rfl rfl⟩
  | gmhd => exact ⟨{ h with }, fun _ => .other (hnone rfl rfl rfl rfl) rfl rfl rfl rfl rfl⟩
  | nmhd => exact ⟨{ h with }, fun _ => .other (hnone rfl rfl rfl rfl) rfl rfl rfl rfl rfl⟩
  | stts len rows =>
    have hfits := Fits.callocArray heap (cInt_lt len.toNat) (⟨0, 0⟩ : MovDurmap)
    simp only [MPlayer.lschunksIntrak]
    rw [hfits.each, ok_bind]
    exact ⟨h.withDurmap (hfits.mapIdx _),
      fun hheap => .ofStts fun hlen => callocArray_fill hheap hlen _ _⟩
  | stsc len rows =>
    have hfits := Fits.callocArray heap (cInt_lt len.toNat) (⟨0, 0, 0⟩ : MovChunkmap)
    simp only [MPlayer.lschunksIntrak]
    rw [hfits.each, ok_bind]
    exact ⟨h.withChunkmap (hfits.mapIdx _),
      fun hheap => .ofStsc fun hlen => callocArray_fill hheap hlen _ _⟩
  | stsz ss entries sizes =>
    simp only [MPlayer.lschunksIntrak]
    split
    · rename_i hss
      have hfits := Fits.callocArray heap (cInt_lt entries.toNat) MovSample.zero
      rw [hfits.each, ok_bind]
      refine ⟨h.withSamples (hfits.mapIdx _) _, fun hheap => .ofStsz fun hlen _ => ?_⟩
      rw [if_pos hss]
      exact callocArray_fill hheap hlen _ _
    · rename_i hss
      refine ⟨h.withSamples h.samples _, fun hheap => .ofStsz fun _ hnil => ?_⟩
      rw [if_neg hss]
      exact hnil
  | stco len offsets =>
    have hsized := h.extendChunks heap (cInt_lt len.toNat)
    simp only [MPlayer.lschunksIntrak]
    rw [hsized.chunks.each, ok_bind]
    refine ⟨hsized.withChunks (hsized.chunks.mapIdx _), fun hheap => .ofOffsets
      ⟨rfl, rfl, rfl, nofun⟩ (t.extendChunks_other heap _) fun ps hps hlen hnil => ?_⟩
    cases hps
    rw [List.length_map, List.length_range] at hlen
    rw [List.map_map]
    exact h.extendChunks_fill hheap hlen hnil _
  | co64 len offsets =>
    have hsized := h.extendChunks heap (cInt_lt len.toNat)
    simp only [MPlayer.lschunksIntrak]
    rw [hsized.chunks.each, ok_bind]
    refine ⟨hsized.withChunks (hsized.chunks.mapIdx _), fun hheap => .ofOffsets
      ⟨rfl, rfl, rfl, nofun⟩ (t.extendChunks_other heap _) fun ps hps hlen hnil => ?_⟩
    cases hps
    rw [List.length_map, List.length_range] at hlen
    rw [List.map_map]
    exact h.extendChunks_fill hheap hlen hnil _
  | elst entries dur pos speed =>
    have hfits := Fits.callocArray heap (cInt_lt entries.toNat) MovEditlist.zero
    simp only [MPlayer.lschunksIntrak]
    rw [hfits.each, ok_bind]
    exact ⟨h.withEditlist (hfits.mapIdx _),
      fun _ => .other (hnone rfl rfl rfl rfl) rfl rfl rfl rfl rfl⟩

/-! ## Runs -/

theorem MovTrack.Sized.lschunks {may : Halt → Prop} {t : MovTrack} (h : t.Sized) :
    (atoms : List (Heap × MovAtom)) → Gives may (lschunks t atoms) MovTrack.Sized
  | [] => h
  | (heap, a) :: atoms =>
    (h.lschunksIntrak heap a).bind fun _ ht => ht.1.lschunks atoms

section Once

variable {may : Halt → Prop} {β : Type} {f : MovAtom → Option β} {b : β} {P Q : MovTrack → Prop}

/-- What atoms without a table of a kind keep, a list of them keeps. -/
theorem MovTrack.Sized.lschunks_without (hQ : ∀ t a t', f a = none → t.Reads a t' → Q t → Q t') :
    {t : MovTrack} → t.Sized → (atoms : List (Heap × MovAtom)) →
    (∀ p ∈ atoms, ∀ n, p.1 n = true) → atoms.filterMap (fun p => f p.2) = [] → Q t →
    Gives may (MPlayer.lschunks t atoms) Q
  | _, _, [], _, _, hq => hq
  | t, h, (heap, a) :: atoms, hheap, hf, hq => by
    have ha : f a = none := by
      cases hfa : f a with
      | none => rfl
      | some x =>
        rw [List.filterMap_cons, hfa] at hf
        cases hf
    rw [List.filterMap_cons, ha] at hf
    refine (h.lschunksIntrak heap a).bind fun t' ht => ?_
    have hreads := ht.2 (hheap (heap, a) (List.mem_cons_self ..))
    exact ht.1.lschunks_without hQ atoms (fun p hp => hheap p (List.mem_cons_of_mem _ hp)) hf
      (hQ t a t' ha hreads hq)

/-- What the one table of a kind brings about, a list of atoms brings about. -/
theorem MovTrack.Sized.lschunks_once (hP : ∀ t a t', f a = none → t.Reads a t' → P t → P t')
    (hPQ : ∀ t a t', f a = some b → t.Reads a t' → P t → Q t')
    (hQ : ∀ t a t', f a = none → t.Reads a t' → Q t → Q t') :
    {t : MovTrack} → t.Sized → (atoms : List (Heap × MovAtom)) →
    (∀ p ∈ atoms, ∀ n, p.1 n = true) → atoms.filterMap (fun p => f p.2) = [b] → P t →
    Gives may (MPlayer.lschunks t atoms) Q
  | _, _, [], _, hf, _ => by cases hf
  | t, h, (heap, a) :: atoms, hheap, hf, hp => by
    have hheap' : ∀ p ∈ atoms, ∀ n, p.1 n = true := fun p hp =>
      hheap p (List.mem_cons_of_mem _ hp)
    refine (h.lschunksIntrak heap a).bind fun t' ht => ?_
    have hreads := ht.2 (hheap (heap, a) (List.mem_cons_self ..))
    cases hfa : f a with
    | none =>
      rw [List.filterMap_cons, hfa] at hf
      exact ht.1.lschunks_once hP hPQ hQ atoms hheap' hf (hP t a t' hfa hreads hp)
    | some x =>
      rw [List.filterMap_cons, hfa] at hf
      obtain ⟨rfl, hrest⟩ := List.cons.inj hf
      exact ht.1.lschunks_without hQ atoms hheap' hrest (hPQ t a t' hfa hreads hp)

end Once

/-! ## Tables -/

/-- The tables of a track: entries of `stts` and `stsc`, the size that all samples have, if it is
not 0, and the size of each, and the offsets of the chunks. -/
structure MovTables where
  stts : List MovDurmap
  stsc : List MovChunkmap
  samplesize : UInt32
  sizes : List UInt32
  offsets : List Int

/-- The atoms hold these tables, one of each kind, in some order. -/
structure MovTables.Of (T : MovTables) (atoms : List MovAtom) : Prop where
  stts : atoms.filterMap MovAtom.stts? = [T.stts]
  stsc : atoms.filterMap MovAtom.stsc? = [T.stsc]
  stsz : atoms.filterMap MovAtom.stsz? = [(T.samplesize, T.sizes)]
  offsets : atoms.filterMap MovAtom.offsets? = [T.offsets]

/-- Every table has as many entries as an `int` counts. -/
structure MovTables.Counted (T : MovTables) : Prop where
  stts : T.stts.length < 0x80000000
  stsc : T.stsc.length < 0x80000000
  sizes : T.sizes.length < 0x80000000
  offsets : T.offsets.length < 0x80000000

/-- The track holds these tables. -/
structure MovTrack.Holds (t : MovTrack) (T : MovTables) : Prop where
  durmap : t.durmap = T.stts
  chunkmap : t.chunkmap = T.stsc.map fun m => { m with first := m.first - 1 }
  samplesize : t.samplesize = cInt T.samplesize.toNat
  samples : t.samples = if T.samplesize = 0 then T.sizes.map fun z => ⟨0, z, 0⟩ else []
  chunks : t.chunks = T.offsets.map fun p => ⟨0, 0, 0, p⟩

/-- Reading the atoms in any order gives the tables. -/
theorem MovTables.Of.lschunks {may : Halt → Prop} {T : MovTables} {atoms : List (Heap × MovAtom)}
    (h : T.Of (atoms.map Prod.snd)) (hT : T.Counted) (hheap : ∀ p ∈ atoms, ∀ n, p.1 n = true) :
    Gives may (lschunks .zero atoms) fun t => t.Sized ∧ t.Holds T := by
  have honce {β : Type} (f : MovAtom → Option β) :
      atoms.filterMap (fun p => f p.2) = (atoms.map Prod.snd).filterMap f :=
    (List.filterMap_map ..).symm
  have hzero := MovTrack.Sized.zero
  have hstts : Gives may (MPlayer.lschunks .zero atoms) fun t => t.durmap = T.stts :=
    hzero.lschunks_once (P := fun _ => True) (f := MovAtom.stts?) (fun _ _ _ _ _ _ => trivial)
      (fun _ _ _ ha hr _ => hr.stts _ ha hT.stts)
      (fun _ _ _ ha hr hq => (hr.durmap ha).trans hq) atoms hheap ((honce _).trans h.stts) trivial
  have hstsc : Gives may (MPlayer.lschunks .zero atoms) fun t =>
      t.chunkmap = T.stsc.map fun m => { m with first := m.first - 1 } :=
    hzero.lschunks_once (P := fun _ => True) (f := MovAtom.stsc?) (fun _ _ _ _ _ _ => trivial)
      (fun _ _ _ ha hr _ => hr.stsc _ ha hT.stsc)
      (fun _ _ _ ha hr hq => (hr.chunkmap ha).trans hq) atoms hheap ((honce _).trans h.stsc)
      trivial
  have hstsz : Gives may (MPlayer.lschunks .zero atoms) fun t =>
      t.samplesize = cInt T.samplesize.toNat ∧
        t.samples = if T.samplesize = 0 then T.sizes.map fun z => ⟨0, z, 0⟩ else [] :=
    hzero.lschunks_once (P := fun t => t.samples = []) (f := MovAtom.stsz?)
      (fun _ _ _ ha hr hp => (hr.samples ha).2.trans hp)
      (fun _ _ _ ha hr hp => hr.stsz _ _ ha hT.sizes hp)
      (fun _ _ _ ha hr hq => ⟨(hr.samples ha).1.trans hq.1, (hr.samples ha).2.trans hq.2⟩)
      atoms hheap ((honce _).trans h.stsz) rfl
  have hoffsets : Gives may (MPlayer.lschunks .zero atoms) fun t =>
      t.chunks = T.offsets.map fun p => ⟨0, 0, 0, p⟩ :=
    hzero.lschunks_once (P := fun t => t.chunks = []) (f := MovAtom.offsets?)
      (fun _ _ _ ha hr hp => (hr.chunks ha).trans hp)
      (fun _ _ _ ha hr hp => hr.offsets _ ha hT.offsets hp)
      (fun _ _ _ ha hr hq => (hr.chunks ha).trans hq)
      atoms hheap ((honce _).trans h.offsets) rfl
  refine (((hzero.lschunks atoms).and (hstts.and hstsc)).and (hstsz.and hoffsets)).mono ?_
  rintro t ⟨⟨hsized, hdurmap, hchunkmap⟩, ⟨hsize, hsamples⟩, hchunks⟩
  exact ⟨hsized, hdurmap, hchunkmap, hsize, hsamples, hchunks⟩

end MPlayer
