import MPlayer.Mov.Expand

/-!
# The sample index

For tables that agree on the samples, `mov_build_index` gives every sample its chunk, its position
and its time.  An audio track whose samples have one size is the exception: it is played chunk by
chunk, so only its chunks and the duration of a sample are worked out.

For all other tables the index may be of no use, but no loop leaves its array or runs forever.
-/

namespace MPlayer

open Lib

variable {may : Halt → Prop} {t : MovTrack}

/-! ## The steps between the loops -/

/-- The workaround for frames of a fixed size changes the samples at most. -/
theorem MovTrack.Sized.fixedSizeFrames (h : t.Sized) (heap : Heap) {s : Int}
    (hs : s < 0x80000000) : Gives may (fixedSizeFrames heap s t) fun t' =>
      ∃ xs n z, t' = { t with samplesize := z, samples := xs, samplesSize := n } ∧ Fits xs n ∧
        (t.samplesSize ≠ 0 ∨ t.type = .audio → xs = t.samples ∧ z = t.samplesize) ∧
        (t.samplesSize = 0 → t.type ≠ .audio → 0 ≤ s → (∀ n, heap n = true) →
          xs = List.replicate s.toNat ⟨0, UInt32.ofInt t.samplesize, 0⟩) := by
  unfold MPlayer.fixedSizeFrames
  split
  · rename_i hcond
    have hfits := Fits.callocArray heap hs MovSample.zero
    dsimp only
    rw [hfits.each, ok_bind]
    refine Gives.ok ⟨_, _, _, rfl, hfits.mapIdx _, ?_, fun _ _ h0 hheap => ?_⟩
    · rintro (h0 | haudio)
      · exact absurd hcond.1 h0
      · exact absurd haudio hcond.2
    · have hreq : callocArray heap s MovSample.zero =
          (List.replicate s.toNat MovSample.zero, s) := by
        unfold callocArray
        rw [if_pos ⟨h0, hheap _⟩]
      rw [hreq]
      refine List.ext_getElem? fun k => ?_
      rw [List.getElem?_mapIdx, List.getElem?_replicate, List.getElem?_replicate]
      split
      · rfl
      · rfl
  · rename_i hcond
    refine Gives.ok ⟨t.samples, t.samplesSize, t.samplesize, rfl, h.samples, fun _ => ⟨rfl, rfl⟩,
      fun h0 haudio => absurd ⟨h0, haudio⟩ hcond⟩

/-- One duration, or two of which the second is for the last sample. -/
def Steady (rows : List MovDurmap) : Prop := rows.length = 1 ∨ ∃ r r', rows = [r, r'] ∧ r'.num = 1

theorem MovTrack.Sized.oneDuration (h : t.Sized) : Gives may (oneDuration t) fun one =>
    (one = true → t.durmap ≠ []) ∧ (Steady t.durmap → one = true) := by
  have hsize := h.durmap.size
  have hnil (hne : t.durmapSize ≠ 0) : t.durmap ≠ [] := by
    intro hnil
    rw [hnil] at hsize
    exact hne hsize
  unfold MPlayer.oneDuration
  split
  · exact Gives.ok ⟨fun _ => hnil (by omega), fun _ => rfl⟩
  · rename_i h1
    split
    · obtain ⟨r, hr⟩ := h.durmap.get (i := 1) (by omega)
      have hfetch : fetch t.durmap 1 = .ok r := fetch_eq hr
      rw [hfetch, ok_bind]
      refine Gives.ok ⟨fun _ => hnil (by omega), ?_⟩
      rintro (hlen | ⟨r₀, r', hrows, hnum⟩)
      · omega
      · rw [hrows] at hr
        cases Option.some.inj hr
        exact decide_eq_true hnum
    · rename_i h2
      refine Gives.ok ⟨nofun, ?_⟩
      rintro (hlen | ⟨r₀, r', hrows, hnum⟩)
      · omega
      · rw [hrows] at hsize
        exact absurd hsize h2

/-- A track of samples of one size gets at most a duration. -/
theorem MovTrack.Sized.constantSamplesize (h : t.Sized) :
    Gives may (constantSamplesize t) fun t' => ∃ d, t' = { t with duration := d } ∧
      (Steady t.durmap → ∀ r, t.durmap[0]? = some r → d = cInt r.dur.toNat) := by
  unfold MPlayer.constantSamplesize
  refine h.oneDuration.bind fun one hone => ?_
  split
  · rename_i htrue
    have hlt : 0 < t.durmap.length := List.length_pos_iff.mpr (hone.1 htrue)
    have hr : t.durmap[0]? = some t.durmap[0] := List.getElem?_eq_getElem hlt
    have hfetch : fetch t.durmap 0 = .ok t.durmap[0] := fetch_eq hr
    rw [hfetch, ok_bind]
    refine Gives.ok ⟨_, rfl, fun _ r hr' => ?_⟩
    cases Option.some.inj (hr.symm.trans hr')
    rfl
  · rename_i hfalse
    exact Gives.ok ⟨t.duration, rfl, fun hsteady => absurd (hone.2 hsteady) hfalse⟩

theorem MovTrack.Sized.extendSamples (h : t.Sized) (heap : Heap) {s : Int} (hs : s < 0x80000000) :
    ∃ xs n, t.extendSamples heap s = { t with samples := xs, samplesSize := n } ∧ Fits xs n ∧
      (s ≤ t.samplesSize → xs = t.samples) := by
  unfold MovTrack.extendSamples
  split
  · exact ⟨_, _, rfl, Fits.callocArray heap hs MovSample.zero, fun hle => absurd hle (by omega)⟩
  · exact ⟨_, _, rfl, h.samples, fun _ => rfl⟩

/-! ## The whole function -/

/-- The chunks with the numbers of their first samples. -/
def numberChunks (cs : List MovChunk) : List MovChunk := cs.mapIdx fun k c =>
  { c with sample := UInt32.ofNat (starts MovChunk.count cs k) }

/-- The chunks are those of `t`, described by the chunk map. -/
def Described (t : MovTrack) (cs : List MovChunk) : Prop :=
  cs.length = t.chunks.length ∧ (Ascending t.chunkmap → ∀ k, cs[k]? =
    t.chunks[k]?.map fun c => (chunkEntry t.chunkmap k).elim c c.describe)

/-- The number of samples that the chunks or the durations claim. -/
def claimed (cs : List MovChunk) (rows : List MovDurmap) : Int :=
  let s := cInt (starts MovChunk.count cs cs.length)
  let i := cInt (starts MovDurmap.count rows rows.length)
  if i > s then i else s

theorem claimed_lt (cs : List MovChunk) (rows : List MovDurmap) : claimed cs rows < 0x80000000 := by
  unfold claimed
  dsimp only
  split
  · exact cInt_lt _
  · exact cInt_lt _

/-- The samples `zs` are `xs` with times and positions. -/
def Expanded (rows : List MovDurmap) (cs : List MovChunk) (xs zs : List MovSample) : Prop :=
  ∃ ys, Swept (MovSample.at rows) xs 0
      (min (starts MovDurmap.count rows rows.length) xs.length) ys ∧
    Swept (MovSample.in cs (ys.map MovSample.size)) ys 0
      (min (starts MovChunk.count cs cs.length) ys.length) zs

/-- What becomes of the samples `xs` of a track with these chunks. -/
inductive Outcome (t : MovTrack) (cs : List MovChunk) (xs : List MovSample) (z : Int) :
    MovTrack → Prop where
  | constant (d : Int) (hxs : xs = [])
      (hd : Steady t.durmap → ∀ r, t.durmap[0]? = some r → d = cInt r.dur.toNat) :
      Outcome t cs xs z
        { t with
          chunks := numberChunks cs, samplesize := z, samples := xs, samplesSize := 0,
          duration := d }
  | sampled (base zs : List MovSample) (n : Int) (el : List MovEditlist) (hxs : xs ≠ [])
      (hn : Fits base n) (hbase : claimed cs t.durmap ≤ xs.length → base = xs)
      (hzs : Expanded t.durmap (numberChunks cs) base zs) :
      Outcome t cs xs z
        { t with
          chunks := numberChunks cs, samplesize := z, samples := zs, samplesSize := n,
          editlist := el }

/-- Nothing but a division by 0 stops `mov_build_index`. -/
theorem MovTrack.Sized.movBuildIndex (h : t.Sized) (heap : Heap) {timescale : Int}
    (hmay : timescale = 0 → may .divide) :
    Gives may (movBuildIndex heap timescale t) fun t' => ∃ cs xs z, Described t cs ∧
      (t.samples ≠ [] ∨ t.type = .audio → xs = t.samples ∧ z = t.samplesize) ∧
      (t.samples = [] → t.type ≠ .audio → 0 ≤ claimed cs t.durmap → (∀ n, heap n = true) →
        xs = List.replicate (claimed cs t.durmap).toNat ⟨0, UInt32.ofInt t.samplesize, 0⟩) ∧
      Outcome t cs xs z t' := by
  unfold MPlayer.movBuildIndex
  refine h.processChunkmap.bind fun cs hcs => ?_
  refine (number_gives (h.chunks.of_length hcs.1)).bind fun l hl => ?_
  obtain ⟨hs, hchunks⟩ := hl
  have hnumber : l.chunks = numberChunks cs := hchunks
  rw [hs, hnumber]
  have hlength : (numberChunks cs).length = t.chunks.length := List.length_mapIdx.trans hcs.1
  have hsized := h.withChunks (h.chunks.of_length hlength)
  dsimp only
  refine hsized.count_gives.bind fun counted hcounted => ?_
  rw [hcounted]
  refine (hsized.fixedSizeFrames heap (claimed_lt cs t.durmap)).bind fun u hu => ?_
  obtain ⟨xs, n, z, rfl, hfits, hkeep, hfill⟩ := hu
  have hxs : Fits xs n := hfits
  have hu := hsized.withSamples hfits z
  have hzero : t.samplesSize = 0 ↔ t.samples = [] := by
    rw [h.samples.size, ← List.length_eq_zero_iff]
    omega
  refine Gives.mono (P := Outcome t cs xs z) ?_ fun t' ht' => ⟨cs, xs, z, hcs,
    fun hor => hkeep (hor.imp_left fun hne h0 => hne (hzero.mp h0)),
    fun hnil hvideo hpos hheap => hfill (hzero.mpr hnil) hvideo hpos hheap, ht'⟩
  have hn := hxs.size
  dsimp only
  split
  · rename_i h0
    have hnil : xs = [] := List.length_eq_zero_iff.mp (by omega)
    refine hu.constantSamplesize.mono ?_
    rintro _ ⟨d, rfl, hd⟩
    cases h0
    exact .constant d hnil hd
  · rename_i h0
    have hne : xs ≠ [] := by
      rintro rfl
      exact h0 hn
    obtain ⟨base, m, hextend, hbase, hle⟩ := hu.extendSamples heap (claimed_lt cs t.durmap)
    have h3 := hu.withSamples hbase z
    unfold claimed at hextend
    dsimp only at hextend
    rw [hextend]
    refine h3.calcPts.bind fun ys hys => ?_
    have h4 := h3.withSamples (hbase.of_length hys.1) z
    refine h4.calcOffsets.bind fun zs hzs => ?_
    have h5 := h4.withSamples (hbase.of_length (hzs.1.trans hys.1)) z
    refine (h5.precalcEditlist hmay).mono ?_
    rintro _ ⟨el, rfl⟩
    exact .sampled base zs m el hne hbase (fun h => hle (hn ▸ h)) ⟨ys, hys, hzs⟩

/-- No tables make the index leave an array or run on. -/
theorem movTrak_stops (heap : Heap) (timescale : Int) (atoms : List (Heap × MovAtom)) :
    Gives (fun e => e = .divide ∧ timescale = 0) (movTrak heap timescale atoms) fun _ => True :=
  (MovTrack.Sized.zero.lschunks atoms).bind fun _ h =>
    (h.movBuildIndex heap fun h0 => ⟨rfl, h0⟩).mono fun _ _ => trivial

/-! ## What the tables mean -/

section Meaning

variable (T : MovTables)

/-- The number of samples of a chunk: that of the last `stsc` entry that begins no later.  Entries
count the chunks from 1. -/
def MovTables.chunkSize (c : Nat) : Nat :=
  ((T.stsc.filter fun m => m.first.toNat ≤ c + 1).getLast?).elim 0 fun m => m.spc.toNat

/-- The number of samples before a chunk. -/
def MovTables.firstSample (c : Nat) : Nat := ((List.range c).map T.chunkSize).sum

/-- The time before a sample. -/
def MovTables.time (k : Nat) : Nat :=
  ((T.stts.flatMap fun r => List.replicate r.num.toNat r.dur.toNat).take k).sum

/-- The bytes of the samples of a chunk before sample `k`. -/
def MovTables.bytes (c k : Nat) : Nat :=
  (((T.sizes.take k).drop (T.firstSample c)).map UInt32.toNat).sum

/-- The tables agree on the samples, and nothing overflows. -/
structure MovTables.Consistent : Prop extends T.Counted where
  firstChunk : ∀ m ∈ T.stsc.head?, m.first = 1
  ascending : T.stsc.Pairwise fun m m' => m.first < m'.first
  chunkSamples : T.firstSample T.offsets.length = T.sizes.length
  sttsSamples : (T.stts.map fun r => r.num.toNat).sum = T.sizes.length
  times : T.time T.sizes.length < 0x80000000
  positions : ∀ (c : Nat) (pos : Int), T.offsets[c]? = some pos → -0x8000000000000000 ≤ pos ∧
    pos + T.bytes c (T.firstSample (c + 1)) < 0x8000000000000000

end Meaning

/-- The chunk table holds what the tables say. -/
structure MovTrack.Chunked (t : MovTrack) (T : MovTables) : Prop where
  length : t.chunks.length = T.offsets.length
  chunk : ∀ (c : Nat) (ch : MovChunk), t.chunks[c]? = some ch → T.offsets[c]? = some ch.pos ∧
    ch.sample.toNat = T.firstSample c ∧ ch.size.toNat = T.chunkSize c

/-- The sample table holds what the tables say: sample `k` lies in a chunk, behind the earlier
samples of the chunk, and begins when all earlier samples are over. -/
structure MovTrack.Exact (t : MovTrack) (T : MovTables) : Prop where
  length : t.samples.length = T.sizes.length
  sample : ∀ (k : Nat) (z : UInt32), T.sizes[k]? = some z →
    ∃ (c : Nat) (ch : MovChunk) (x : MovSample), t.chunks[c]? = some ch ∧ t.samples[k]? = some x ∧
      ch.sample.toNat ≤ k ∧ k < ch.sample.toNat + ch.size.toNat ∧
      x.pos = ch.pos + T.bytes c k ∧ x.pts.toNat = T.time k ∧ x.size = z

/-- A track of samples of one size has no sample table.  Its duration is that of every sample, if
`stts` is plain enough. -/
structure MovTrack.Constant (t : MovTrack) (T : MovTables) : Prop where
  samples : t.samples = []
  samplesize : t.samplesize = cInt T.samplesize.toNat
  duration : Steady T.stts → ∀ k : Nat, k < T.sizes.length → (k : Int) * t.duration = T.time k

variable {T : MovTables}

theorem MovTables.firstSample_succ (c : Nat) :
    T.firstSample (c + 1) = T.firstSample c + T.chunkSize c := by
  unfold MovTables.firstSample
  rw [List.range_succ, List.map_append, List.sum_append]
  rfl

theorem MovTables.time_eq : T.time = timeOf T.stts := by
  funext k
  unfold MovTables.time timeOf durations expand
  rw [List.map_flatMap]
  simp only [List.map_replicate, MovDurmap.count]

theorem MovTables.Consistent.first_pos (h : T.Consistent) {m : MovChunkmap} (hm : m ∈ T.stsc) :
    1 ≤ m.first.toNat := by
  have hfirst := h.firstChunk
  have hasc := h.ascending
  cases hstsc : T.stsc with
  | nil =>
    rw [hstsc] at hm
    cases hm
  | cons m₀ rows =>
    rw [hstsc] at hm hfirst hasc
    have h1 : m₀.first = 1 := hfirst m₀ rfl
    rcases List.mem_cons.mp hm with rfl | hm
    · rw [h1]
      decide
    · have hlt := UInt32.lt_iff_toNat_lt.mp ((List.pairwise_cons.mp hasc).1 m hm)
      omega

/-- Counting the chunks from 0. -/
theorem MovTables.Consistent.first_sub (h : T.Consistent) {m : MovChunkmap} (hm : m ∈ T.stsc) :
    (m.first - 1).toNat = m.first.toNat - 1 := by
  have h1 := h.first_pos hm
  have hle : (1 : UInt32) ≤ m.first := UInt32.le_iff_toNat_le.mpr h1
  rw [UInt32.toNat_sub_of_le _ _ hle]
  rfl

/-- The chunk map of a track, whose entries count the chunks from 0. -/
def MovTables.chunkmap (T : MovTables) : List MovChunkmap :=
  T.stsc.map fun m => { m with first := m.first - 1 }

theorem MovTables.Consistent.chunkmap_ascending (h : T.Consistent) : Ascending T.chunkmap := by
  unfold Ascending MovTables.chunkmap
  rw [List.pairwise_map]
  refine h.ascending.imp_of_mem fun {m m'} hm hm' hm'' => ?_
  have hlt := UInt32.lt_iff_toNat_lt.mp hm''
  have hpos := h.first_pos hm
  refine UInt32.lt_iff_toNat_lt.mpr ?_
  dsimp only
  rw [h.first_sub hm, h.first_sub hm']
  omega

theorem MovTables.Consistent.chunkEntry (h : T.Consistent) (c : Nat) :
    ((chunkEntry T.chunkmap c).elim 0 fun m => m.spc.toNat) = T.chunkSize c := by
  unfold MPlayer.chunkEntry MovTables.chunkSize MovTables.chunkmap
  rw [List.filter_map, List.getLast?_map, Option.elim_map]
  have hfilter : (T.stsc.filter ((fun m => decide (m.first.toNat ≤ c)) ∘
        fun m : MovChunkmap => { m with first := m.first - 1 })) =
      T.stsc.filter fun m => m.first.toNat ≤ c + 1 := by
    refine List.filter_congr fun m hm => ?_
    have hpos := h.first_pos hm
    have hsub := h.first_sub hm
    simp only [Function.comp_apply, hsub]
    exact decide_eq_decide.mpr (by omega)
  rw [hfilter]
  rfl

/-! ## The chunk table -/

theorem starts_congr {α β : Type} {n : α → Nat} {m : β → Nat} {xs : List α} {ys : List β}
    (h : xs.map n = ys.map m) (k : Nat) : starts n xs k = starts m ys k := by
  unfold starts
  rw [List.map_take, List.map_take, h]

theorem starts_numberChunks (cs : List MovChunk) (k : Nat) :
    starts MovChunk.count (numberChunks cs) k = starts MovChunk.count cs k := by
  refine starts_congr (List.ext_getElem? fun i => ?_) k
  unfold numberChunks
  rw [List.getElem?_map, List.getElem?_map, List.getElem?_mapIdx]
  cases cs[i]? with
  | none => rfl
  | some c => rfl

section Chunks

variable {cs : List MovChunk}

/-- A chunk has the offset and the number of samples that the tables give it. -/
theorem Described.chunk (hcs : Described t cs) (hT : t.Holds T) (h : T.Consistent) {k : Nat}
    {c : MovChunk} (hc : cs[k]? = some c) :
    T.offsets[k]? = some c.pos ∧ c.count = T.chunkSize k := by
  have hmap : t.chunkmap = T.chunkmap := hT.chunkmap
  have hk := hcs.2 (hmap ▸ h.chunkmap_ascending) k
  rw [hc, hT.chunks, hmap, List.getElem?_map] at hk
  cases hp : T.offsets[k]? with
  | none =>
    rw [hp] at hk
    cases hk
  | some p =>
    rw [hp] at hk
    have hentry := h.chunkEntry k
    cases hm : chunkEntry T.chunkmap k with
    | none =>
      rw [hm] at hk hentry
      cases Option.some.inj hk
      exact ⟨rfl, hentry⟩
    | some m =>
      rw [hm] at hk hentry
      cases Option.some.inj hk
      exact ⟨rfl, hentry⟩

theorem Described.length (hcs : Described t cs) (hT : t.Holds T) :
    cs.length = T.offsets.length := by
  rw [hcs.1, hT.chunks, List.length_map]

/-- A chunk begins with the sample that the tables give it. -/
theorem Described.first (hcs : Described t cs) (hT : t.Holds T) (h : T.Consistent) :
    (k : Nat) → k ≤ cs.length → starts MovChunk.count cs k = T.firstSample k
  | 0, _ => starts_zero
  | k + 1, hk => by
    have hc : cs[k]? = some cs[k] := List.getElem?_eq_getElem hk
    rw [starts_succ hc, T.firstSample_succ, (hcs.chunk hT h hc).2,
      hcs.first hT h k (Nat.le_of_succ_le hk)]

theorem Described.total (hcs : Described t cs) (hT : t.Holds T) (h : T.Consistent) :
    starts MovChunk.count cs cs.length = T.sizes.length := by
  rw [hcs.first hT h _ (Nat.le_refl _), hcs.length hT, h.chunkSamples]

theorem MovTables.Consistent.sttsTotal (h : T.Consistent) :
    starts MovDurmap.count T.stts T.stts.length = T.sizes.length := by
  unfold starts
  rw [List.take_length]
  exact h.sttsSamples

/-- The tables claim as many samples as there are sizes. -/
theorem Described.claimed (hcs : Described t cs) (hT : t.Holds T) (h : T.Consistent) :
    claimed cs t.durmap = T.sizes.length := by
  unfold MPlayer.claimed
  rw [hT.durmap, hcs.total hT h, h.sttsTotal]
  dsimp only
  rw [if_neg (by omega), cInt_of_lt h.sizes]

/-- Earlier chunks have fewer samples before them. -/
theorem MovTables.firstSample_mono (T : MovTables) {c c' : Nat} (hc : c ≤ c') :
    T.firstSample c ≤ T.firstSample c' := by
  induction hc with
  | refl => exact Nat.le_refl _
  | @step c' _ ih =>
    rw [T.firstSample_succ]
    omega

/-- The chunk table is what the tables say. -/
theorem Described.chunked (hcs : Described t cs) (hT : t.Holds T) (h : T.Consistent)
    {t' : MovTrack} (ht' : t'.chunks = numberChunks cs) : t'.Chunked T where
  length := by
    rw [ht', ← hcs.length hT]
    exact List.length_mapIdx
  chunk k ch hch := by
    rw [ht'] at hch
    unfold numberChunks at hch
    rw [List.getElem?_mapIdx] at hch
    obtain ⟨c, hc, rfl⟩ := Option.map_eq_some_iff.mp hch
    have hlt := (List.getElem?_eq_some_iff.mp hc).1
    have hstart := hcs.first hT h k (Nat.le_of_lt hlt)
    have hle := T.firstSample_mono (Nat.le_of_lt (hcs.length hT ▸ hlt))
    have hsizes := h.sizes
    rw [h.chunkSamples] at hle
    refine ⟨(hcs.chunk hT h hc).1, ?_, (hcs.chunk hT h hc).2⟩
    dsimp only
    rw [hstart, UInt32.toNat_ofNat']
    omega

end Chunks

/-! ## The sample table -/

theorem sum_take_le (xs : List Nat) (k : Nat) : (xs.take k).sum ≤ xs.sum := by
  have h : ((xs.take k) ++ (xs.drop k)).sum = xs.sum := by rw [List.take_append_drop]
  rw [List.sum_append] at h
  omega

theorem sum_take_mono (xs : List Nat) {k k' : Nat} (h : k ≤ k') :
    (xs.take k).sum ≤ (xs.take k').sum := by
  have htake : (xs.take k').take k = xs.take k := by
    rw [List.take_take, Nat.min_eq_left h]
  rw [← htake]
  exact sum_take_le _ _

/-- Moving on within `off_t`. -/
theorem walk_eq : (sizes : List UInt32) → {pos : Int} → -0x8000000000000000 ≤ pos →
    pos + (sizes.map UInt32.toNat).sum < 0x8000000000000000 →
    walk pos sizes = pos + (sizes.map UInt32.toNat).sum
  | [], pos, _, _ => (Int.add_zero pos).symm
  | z :: sizes, pos, hlo, hhi => by
    rw [List.map_cons, List.sum_cons, Int.natCast_add] at hhi ⊢
    have hoff : offT (pos + z.toNat) = pos + z.toNat := by
      unfold offT
      omega
    have ih : walk (pos + z.toNat) sizes = pos + z.toNat + (sizes.map UInt32.toNat).sum :=
      walk_eq sizes (by omega) (by omega)
    unfold walk at ih ⊢
    rw [List.foldl_cons, hoff, ih]
    omega

theorem swept_sizes {f : Nat → MovSample → MovSample} (hf : ∀ k x, (f k x).size = x.size)
    {xs ys : List MovSample} {i : Nat} (h : Swept f xs 0 i ys) :
    ys.map MovSample.size = xs.map MovSample.size := by
  refine List.ext_getElem? fun k => ?_
  rw [List.getElem?_map, List.getElem?_map, h.2 k]
  cases xs[k]? with
  | none =>
    split
    · rfl
    · rfl
  | some x =>
    split
    · exact congrArg some (hf k x)
    · rfl

/-- A filled sample. -/
theorem Expanded.sample {rows : List MovDurmap} {cs : List MovChunk} {xs zs : List MovSample}
    (h : Expanded rows cs xs zs) (hrows : starts MovDurmap.count rows rows.length = xs.length)
    (hcs : starts MovChunk.count cs cs.length = xs.length) {k : Nat} {x : MovSample}
    (hx : xs[k]? = some x) : zs[k]? = some
      ⟨UInt32.ofNat (timeOf rows k), x.size, placeOf cs (xs.map MovSample.size) k⟩ := by
  obtain ⟨ys, hys, hzs⟩ := h
  have hlt := (List.getElem?_eq_some_iff.mp hx).1
  have hsizes := swept_sizes (f := MovSample.at rows) (fun _ _ => rfl) hys
  rw [hrows, Nat.min_self] at hys
  rw [hcs, hys.1, Nat.min_self, hsizes] at hzs
  rw [hzs.2 k, if_pos ⟨Nat.zero_le k, hlt⟩, hys.2 k, if_pos ⟨Nat.zero_le k, hlt⟩, hx]
  rfl

theorem Expanded.length {rows : List MovDurmap} {cs : List MovChunk} {xs zs : List MovSample}
    (h : Expanded rows cs xs zs) : zs.length = xs.length := by
  obtain ⟨ys, hys, hzs⟩ := h
  exact hzs.1.trans hys.1

/-- The sample table is what the tables say. -/
theorem Described.exact {cs : List MovChunk} (hcs : Described t cs) (hT : t.Holds T)
    (h : T.Consistent) {t' : MovTrack} (ht' : t'.chunks = numberChunks cs) {xs : List MovSample}
    (hxs : xs.map MovSample.size = T.sizes)
    (hfill : Expanded t.durmap (numberChunks cs) xs t'.samples) : t'.Exact T := by
  have hlen : xs.length = T.sizes.length := by rw [← hxs, List.length_map]
  have hchunked := hcs.chunked hT h ht'
  have htotal : starts MovChunk.count (numberChunks cs) (numberChunks cs).length = xs.length := by
    have hnum : (numberChunks cs).length = cs.length := List.length_mapIdx
    rw [starts_numberChunks, hnum, hcs.total hT h, hlen]
  refine ⟨hfill.length.trans hlen, fun k z hz => ?_⟩
  have hk : k < T.sizes.length := (List.getElem?_eq_some_iff.mp hz).1
  have hx : xs[k]? = some xs[k] := List.getElem?_eq_getElem (hlen ▸ hk)
  have hxz : xs[k].size = z := by
    rw [← hxs, List.getElem?_map, hx] at hz
    exact Option.some.inj hz
  have hsample := hfill.sample (by rw [hT.durmap, h.sttsTotal, hlen]) htotal hx
  have hk' : k < starts MovChunk.count (numberChunks cs) (numberChunks cs).length := by
    rw [htotal, hlen]
    exact hk
  obtain ⟨c, ch, i, hc, hi, rfl⟩ := exists_starts hk'
  obtain ⟨hoff, hstart, hcount⟩ := hchunked.chunk c ch (ht' ▸ hc)
  have hfirst : starts MovChunk.count (numberChunks cs) c = T.firstSample c := by
    have hlt : c < (numberChunks cs).length := (List.getElem?_eq_some_iff.mp hc).1
    unfold numberChunks at hlt
    rw [List.length_mapIdx] at hlt
    rw [starts_numberChunks, hcs.first hT h c (Nat.le_of_lt hlt)]
  have hi' : i < T.chunkSize c := hcount ▸ hi
  have hpos := h.positions c ch.pos hoff
  refine ⟨c, ch, _, ht' ▸ hc, hsample, ?_, ?_, ?_, ?_, hxz⟩
  · omega
  · omega
  · dsimp only
    rw [placeOf_at hc hi, hxs, hfirst]
    have hbytes : T.bytes c (T.firstSample c + i) =
        (((T.sizes.drop (T.firstSample c)).take i).map UInt32.toNat).sum := by
      unfold MovTables.bytes
      rw [List.drop_take, Nat.add_sub_cancel_left]
    have hle : T.bytes c (T.firstSample c + i) ≤ T.bytes c (T.firstSample (c + 1)) := by
      unfold MovTables.bytes
      rw [List.drop_take, List.drop_take, List.map_take, List.map_take]
      refine sum_take_mono _ ?_
      rw [T.firstSample_succ]
      omega
    rw [hbytes] at hle ⊢
    exact walk_eq _ hpos.1 (by omega)
  · have hle : T.time (starts MovChunk.count (numberChunks cs) c + i) ≤ T.time T.sizes.length :=
      sum_take_mono _ (Nat.le_of_lt hk)
    have htimes := h.times
    dsimp only
    rw [hT.durmap, ← MovTables.time_eq, UInt32.toNat_ofNat']
    omega

/-! ## The index of a track -/

/-- Samples that have one size have it each. -/
theorem MovTables.Of.sizes {atoms : List MovAtom} (h : T.Of atoms) (hss : T.samplesize ≠ 0) :
    T.sizes = List.replicate T.sizes.length T.samplesize := by
  have hmem : (T.samplesize, T.sizes) ∈ atoms.filterMap MovAtom.stsz? := by
    rw [h.stsz]
    exact List.mem_singleton_self _
  obtain ⟨a, _, ha⟩ := List.mem_filterMap.mp hmem
  cases a with
  | stsz ss entries sizes =>
    unfold MovAtom.stsz? at ha
    obtain ⟨rfl, hsizes⟩ := Prod.mk.inj (Option.some.inj ha)
    refine List.eq_replicate_iff.mpr ⟨rfl, fun z hz => ?_⟩
    rw [← hsizes] at hz
    obtain ⟨i, _, rfl⟩ := List.mem_map.mp hz
    exact if_neg hss
  | _ => cases ha

/-- The samples that the index starts from have the sizes of the tables. -/
theorem MovTrack.Holds.sizes (hT : t.Holds T) {atoms : List MovAtom} (hof : T.Of atoms)
    {xs : List MovSample}
    (hkeep : t.samples ≠ [] ∨ t.type = .audio → xs = t.samples)
    (hfill : t.samples = [] → t.type ≠ .audio →
      xs = List.replicate T.sizes.length ⟨0, UInt32.ofInt t.samplesize, 0⟩)
    (hplain : T.samplesize = 0 ∨ t.type ≠ .audio) : xs.map MovSample.size = T.sizes := by
  have hsamples := hT.samples
  by_cases hss : T.samplesize = 0
  · rw [if_pos hss] at hsamples
    have hsizes : t.samples.map MovSample.size = T.sizes := by
      rw [hsamples, List.map_map]
      exact List.map_id _
    by_cases hor : t.samples ≠ [] ∨ t.type = .audio
    · rw [hkeep hor, hsizes]
    · have hnil : t.samples = [] := Decidable.byContradiction fun h => hor (Or.inl h)
      have hzero : T.sizes = [] := by
        rw [← hsizes, hnil]
        rfl
      rw [hfill hnil fun h => hor (Or.inr h), hzero]
      rfl
  · rw [if_neg hss] at hsamples
    have hsize : UInt32.ofInt t.samplesize = T.samplesize := by
      rw [hT.samplesize, ofInt_cInt, UInt32.ofNat_toNat]
    rw [hfill hsamples (hplain.resolve_left hss), List.map_replicate, hsize]
    exact (hof.sizes hss).symm

/-- The duration of steady tables is that of every sample but the last. -/
theorem MovTables.Consistent.duration (h : T.Consistent) (hsteady : Steady T.stts) {d : Int}
    (hd : ∀ r, T.stts[0]? = some r → d = cInt r.dur.toNat) {k : Nat} (hk : k < T.sizes.length) :
    (k : Int) * d = T.time k := by
  obtain ⟨r, rows, hrows, hnum⟩ : ∃ r rows, T.stts = r :: rows ∧ k ≤ r.count := by
    have htotal := h.sttsSamples
    rcases hsteady with hlen | ⟨r, r', hrows, hlast⟩
    · obtain ⟨r, hrows⟩ := List.length_eq_one_iff.mp hlen
      refine ⟨r, [], hrows, ?_⟩
      rw [hrows, List.map_singleton, List.sum_singleton] at htotal
      unfold MovDurmap.count
      omega
    · refine ⟨r, [r'], hrows, ?_⟩
      rw [hrows, List.map_cons, List.map_singleton, List.sum_cons, List.sum_singleton, hlast]
        at htotal
      have h1 : (1 : UInt32).toNat = 1 := rfl
      unfold MovDurmap.count
      omega
  have htime : ∀ i ≤ r.count, T.time i = i * r.dur.toNat := by
    intro i hi
    unfold MovDurmap.count at hi
    unfold MovTables.time
    have hlen : i ≤ (List.replicate r.num.toNat r.dur.toNat).length := by
      rw [List.length_replicate]
      exact hi
    rw [hrows, List.flatMap_cons, List.take_append_of_le_length hlen, List.take_replicate,
      Nat.min_eq_left hi, List.sum_replicate_nat]
  rw [htime k hnum, hd r (by rw [hrows]; rfl)]
  cases k with
  | zero =>
    rw [Nat.zero_mul]
    exact Int.zero_mul _
  | succ k =>
    have hle : T.time (k + 1) ≤ T.time T.sizes.length := sum_take_mono _ (Nat.le_of_lt hk)
    have htimes := h.times
    rw [htime _ hnum] at hle
    have hdur : r.dur.toNat ≤ (k + 1) * r.dur.toNat := Nat.le_mul_of_pos_left _ (Nat.succ_pos k)
    rw [cInt_of_lt (by omega), Int.natCast_mul]

/-- What is built from consistent tables. -/
theorem MovTrack.Sized.built (h : t.Sized) (hT : t.Holds T) {atoms : List MovAtom}
    (hof : T.Of atoms) (hC : T.Consistent) {heap : Heap} (hheap : ∀ n, heap n = true)
    {timescale : Int} (hmay : timescale = 0 → may .divide) :
    Gives may (MPlayer.movBuildIndex heap timescale t) fun t' => t'.Chunked T ∧
      (T.samplesize = 0 ∨ t'.type ≠ .audio → t'.Exact T) ∧
      (T.samplesize ≠ 0 → t'.type = .audio → t'.Constant T) := by
  refine (h.movBuildIndex heap hmay).mono ?_
  rintro t' ⟨cs, xs, z, hcs, hkeep, hfill, hout⟩
  rw [hcs.claimed hT hC] at hfill
  have hfill' : t.samples = [] → t.type ≠ .audio →
      xs = List.replicate T.sizes.length ⟨0, UInt32.ofInt t.samplesize, 0⟩ := fun hnil hvideo =>
    hfill hnil hvideo (Int.natCast_nonneg _) hheap
  have hsizes := hT.sizes hof (fun hor => (hkeep hor).1) hfill'
  cases hout with
  | constant d hxs hd =>
    refine ⟨hcs.chunked hT hC rfl, fun hplain => ?_, fun hss haudio => ?_⟩
    · have hnil : T.sizes = [] := by
        rw [← hsizes hplain, hxs]
        rfl
      refine ⟨?_, fun k z hz => ?_⟩
      · rw [hnil]
        exact congrArg List.length hxs
      · rw [hnil] at hz
        cases hz
    · refine ⟨hxs, ?_, fun hsteady k hk => ?_⟩
      · exact (hkeep (Or.inr haudio)).2.trans hT.samplesize
      · rw [← hT.durmap] at hsteady
        exact hC.duration (hT.durmap ▸ hsteady) (hT.durmap ▸ hd hsteady) hk
  | sampled base zs n el hxs hn hbase hzs =>
    have hbase' (hplain : T.samplesize = 0 ∨ t.type ≠ .audio) : base = xs := by
      have hlen : xs.length = T.sizes.length := by rw [← hsizes hplain, List.length_map]
      refine hbase (Int.le_of_eq ?_)
      rw [hcs.claimed hT hC, hlen]
    refine ⟨hcs.chunked hT hC rfl, fun hplain => ?_, fun hss haudio => ?_⟩
    · exact hcs.exact hT hC rfl (hsizes hplain) (hbase' hplain ▸ hzs)
    · have hsamples := hT.samples
      rw [if_neg hss] at hsamples
      exact absurd ((hkeep (Or.inr haudio)).1.trans hsamples) hxs

/-- For consistent tables in any order the index holds what the tables say: every chunk its number
of samples and the number of the first, and every sample its chunk, position and time, or, for an
audio track whose samples have one size, the duration of a sample.  For all tables every access is
inside its array and every loop ends: only a division by the time scale of the movie can fail. -/
theorem mov_index_exact :
    (∀ heap timescale atoms e, movTrak heap timescale atoms = .error e →
      e = .divide ∧ timescale = 0) ∧
    ∀ heap timescale atoms (T : MovTables) t, T.Consistent → T.Of (atoms.map Prod.snd) →
      (∀ n, heap n = true) → (∀ p ∈ atoms, ∀ n, p.1 n = true) →
      movTrak heap timescale atoms = .ok t → t.Chunked T ∧
        (T.samplesize = 0 ∨ t.type ≠ .audio → t.Exact T) ∧
        (T.samplesize ≠ 0 → t.type = .audio → t.Constant T) := by
  refine ⟨fun heap timescale atoms e he => ?_,
    fun heap timescale atoms T t hC hof hheap hatoms ht => ?_⟩
  · have hstops := movTrak_stops heap timescale atoms
    rw [he] at hstops
    exact hstops
  · have hgives : Gives (fun e => e = .divide ∧ timescale = 0) (movTrak heap timescale atoms)
        fun t => t.Chunked T ∧ (T.samplesize = 0 ∨ t.type ≠ .audio → t.Exact T) ∧
          (T.samplesize ≠ 0 → t.type = .audio → t.Constant T) :=
      (hof.lschunks hC.toCounted hatoms).bind fun _ hread =>
        hread.1.built hread.2 hof hC hheap fun h0 => ⟨rfl, h0⟩
    rw [ht] at hgives
    exact hgives

/-- A video track of three samples of different sizes in two chunks. -/
def videoAtoms : List (Heap × MovAtom) :=
  [(fun _ => true, .vmhd), (fun _ => true, .stco 2 fun i => if i = 0 then 100 else 50),
    (fun _ => true, .stsz 0 3 fun i => UInt32.ofNat (4 + i)),
    (fun _ => true, .stsc 2 fun i => if i = 0 then ⟨1, 2, 1⟩ else ⟨2, 1, 1⟩),
    (fun _ => true, .stts 2 fun i => if i = 0 then ⟨2, 7⟩ else ⟨1, 3⟩)]

/-- Its tables. -/
def videoTables : MovTables :=
  ⟨[⟨2, 7⟩, ⟨1, 3⟩], [⟨1, 2, 1⟩, ⟨2, 1, 1⟩], 0, [4, 5, 6], [100, 50]⟩

theorem videoTables_consistent : videoTables.Consistent where
  stts := by decide
  stsc := by decide
  sizes := by decide
  offsets := by decide
  firstChunk m hm := by
    cases Option.mem_some.mp hm
    rfl
  ascending := by decide
  chunkSamples := by decide
  sttsSamples := by decide
  times := by decide
  positions c pos hpos := by
    match c with
    | 0 | 1 =>
      cases hpos
      decide
    | c + 2 => cases hpos

theorem mov_index_exact_twoChunks :
    ∃ t, movTrak (fun _ => true) 600 videoAtoms = .ok t ∧ t.Exact videoTables := by
  have hsome : (movTrak (fun _ => true) 600 videoAtoms).toOption.isSome := by decide +kernel
  obtain ⟨t, ht⟩ := Option.isSome_iff_exists.mp hsome
  have hok := eq_ok_of_toOption ht
  exact ⟨t, hok, (mov_index_exact.2 _ _ _ _ _ videoTables_consistent ⟨rfl, rfl, rfl, rfl⟩
    (fun _ => rfl) (by simp [videoAtoms]) hok).2.1 (.inl rfl)⟩

/-- A sound track of two samples of four bytes in one chunk. -/
def pcmAtoms : List (Heap × MovAtom) :=
  [(fun _ => true, .smhd), (fun _ => true, .stts 1 fun _ => ⟨2, 1⟩),
    (fun _ => true, .stsc 1 fun _ => ⟨1, 2, 1⟩), (fun _ => true, .stsz 4 2 fun _ => 0),
    (fun _ => true, .stco 1 fun _ => 100)]

def pcmTables : MovTables := ⟨[⟨2, 1⟩], [⟨1, 2, 1⟩], 4, [4, 4], [100]⟩

/-- The track with its index. -/
def pcmTrack : MovTrack :=
  ⟨.audio, 0, 4, 1, 0, [], 1, [⟨0, 2, 1, 100⟩], 1, [⟨0, 2, 1⟩], 1, [⟨2, 1⟩], 0, []⟩

theorem pcmTables_consistent : pcmTables.Consistent where
  stts := by decide
  stsc := by decide
  sizes := by decide
  offsets := by decide
  firstChunk m hm := by
    cases Option.mem_some.mp hm
    rfl
  ascending := List.pairwise_singleton ..
  chunkSamples := by decide
  sttsSamples := by decide
  times := by decide
  positions c pos hpos := by
    match c with
    | 0 =>
      cases hpos
      decide
    | c + 1 => cases hpos

theorem pcmTables_of : pcmTables.Of (pcmAtoms.map Prod.snd) := ⟨rfl, rfl, rfl, rfl⟩

/-- Samples of a sound track that have one size are in no sample table. -/
theorem constant_samples_unlisted : pcmTables.Consistent ∧ pcmTables.Of (pcmAtoms.map Prod.snd) ∧
    movTrak (fun _ => true) 600 pcmAtoms = .ok pcmTrack ∧ ¬pcmTrack.Exact pcmTables := by
  have hbuilt : (movTrak (fun _ => true) 600 pcmAtoms).toOption = some pcmTrack := by decide +kernel
  refine ⟨pcmTables_consistent, pcmTables_of, eq_ok_of_toOption hbuilt, fun h => ?_⟩
  exact absurd h.length (by decide)

end MPlayer
