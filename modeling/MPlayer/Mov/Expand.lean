import MPlayer.Mov.Reading
import MPlayer.Lib.RunLength

/-!
# The loops of the index

What each loop of `mov_build_index` makes of the arrays of a track, whatever the tables hold.  The
loops stay inside the arrays because the size of every array is its length.
-/

namespace MPlayer

open Lib

variable {may : Halt → Prop} {t : MovTrack}

variable {n k j : Nat} {rows : List MovChunkmap}

theorem lt_turns (h : n < 0x80000000) : n < turns := by
  rw [turns]
  exact h

theorem cInt_add (m : Int) (n : Int) : cInt (cInt m + n) = cInt (m + n) := by
  unfold cInt
  omega

theorem ofInt_cInt (n : Nat) : UInt32.ofInt (cInt n) = UInt32.ofNat n := by
  apply UInt32.toNat.inj
  unfold cInt UInt32.ofInt
  rw [UInt32.toNat_ofNat', UInt32.toNat_ofNat']
  omega

theorem Fits.get {α : Type} {xs : List α} {n : Int} (h : Fits xs n) {i : Nat} (hi : (i : Int) < n) :
    ∃ x, xs[i]? = some x := by
  have hlt : i < xs.length := by
    have := h.size
    omega
  exact ⟨xs[i], List.getElem?_eq_getElem hlt⟩

/-! ## The chunk map -/

/-- The loop over the chunks of an entry. -/
theorem describe_gives (m : MovChunkmap) {cs : List MovChunk} {last : Nat} (first : Int)
    (hlast : last ≤ cs.length) (hcs : cs.length < 0x80000000) :
    Gives may (loop (describeTurn m last) turns (first, cs)) fun s =>
      s.2.length = cs.length ∧ ∀ k : Nat, s.2[k]? =
        if 0 ≤ first ∧ first ≤ k ∧ k < last then cs[k]?.map fun c => c.describe m else cs[k]? := by
  refine Gives.loop (I := fun s : Int × List MovChunk => first ≤ s.1 ∧ (0 ≤ first →
      Swept (fun _ c => c.describe m) cs first.toNat s.1.toNat s.2) ∧
      (first < 0 → s = (first, cs)) ∧ (s.1 ≤ last ∨ s.1 = first)) (fun s => last - s.1.toNat) ?_
    ⟨Int.le_refl _, fun _ => Swept.start _ _ _, fun _ => rfl, Or.inr rfl⟩ (lt_turns (by omega))
  rintro ⟨j, ys⟩ ⟨hfirst, hswept, hneg, hle⟩
  dsimp only at hfirst hswept hle
  unfold describeTurn
  split
  · rename_i hj
    dsimp only at hj
    have h0 : 0 ≤ first := by
      by_cases h : first < 0
      · cases hneg h
        exact hj.1
      · omega
    have hsw := hswept h0
    obtain ⟨i, rfl⟩ : ∃ i : Nat, j = i := ⟨j.toNat, (Int.toNat_of_nonneg hj.1).symm⟩
    rw [Int.toNat_natCast] at hsw
    have hlt : i < ys.length := by
      rw [hsw.1]
      omega
    have hy : ys[i]? = some ys[i] := List.getElem?_eq_getElem hlt
    dsimp only
    rw [amend_eq hy, ok_bind]
    refine Gives.ok
      ⟨⟨by dsimp only; omega, fun _ => ?_, fun h => absurd h0 (by omega), Or.inl ?_⟩, ?_⟩
    · exact hsw.succ (by omega) hy
    · dsimp only
      omega
    · dsimp only
      omega
  · rename_i hj
    dsimp only at hj
    refine Gives.ok ?_
    by_cases h0 : 0 ≤ first
    · have hsw := hswept h0
      refine ⟨hsw.1, fun k => ?_⟩
      have hend : (first.toNat ≤ k ∧ k < j.toNat) ↔ (0 ≤ first ∧ first ≤ k ∧ k < last) := by
        omega
      rw [hsw.2 k]
      simp only [hend]
    · cases hneg (by omega)
      exact ⟨rfl, fun k => (if_neg (fun h => h0 h.1)).symm⟩

/-- The entry for a chunk: the last one that begins no later. -/
def chunkEntry (rows : List MovChunkmap) (k : Nat) : Option MovChunkmap :=
  (rows.filter fun m => m.first.toNat ≤ k).getLast?

theorem chunkEntry_cons (m : MovChunkmap) (rows : List MovChunkmap) (k : Nat) :
    chunkEntry (m :: rows) k =
      (chunkEntry rows k).or (if m.first.toNat ≤ k then some m else none) := by
  unfold chunkEntry
  by_cases hm : m.first.toNat ≤ k
  · rw [List.filter_cons_of_pos (by simpa using hm), List.getLast?_cons, if_pos hm]
    cases (rows.filter fun m => m.first.toNat ≤ k).getLast? with
    | none => rfl
    | some e => rfl
  · rw [List.filter_cons_of_neg (by simpa using hm), if_neg hm, Option.or_none]

theorem chunkEntry_none (h : ∀ m ∈ rows, k < m.first.toNat) : chunkEntry rows k = none := by
  unfold chunkEntry
  have hnil : rows.filter (fun m => m.first.toNat ≤ k) = [] := by
    refine List.filter_eq_nil_iff.mpr fun m hm => ?_
    have := h m hm
    simpa using this
  rw [hnil]
  rfl

/-- The entries begin one after the other. -/
def Ascending (rows : List MovChunkmap) : Prop := rows.Pairwise fun m m' => m.first < m'.first

theorem Ascending.tail {m : MovChunkmap} {rows : List MovChunkmap} (h : Ascending (m :: rows)) :
    Ascending rows := (List.pairwise_cons.mp h).2

/-- The first chunk that these entries describe, of `n` chunks. -/
def described (n : Nat) : List MovChunkmap → Nat
  | [] => n
  | m :: _ => min m.first.toNat n

theorem described_cons (n : Nat) (m : MovChunkmap) (rows : List MovChunkmap) :
    described n (m :: rows) = min m.first.toNat n := rfl

theorem described_le (n : Nat) (rows : List MovChunkmap) : described n rows ≤ n := by
  cases rows with
  | nil => exact Nat.le_refl n
  | cons m rows => exact Nat.min_le_right _ _

/-- Chunks before the first described one have no entry. -/
theorem Ascending.chunkEntry_none (h : Ascending rows) (hk : k < described n rows) :
    chunkEntry rows k = none := by
  cases rows with
  | nil => rfl
  | cons m rows =>
    have hm : k < m.first.toNat := by
      rw [described_cons] at hk
      omega
    refine MPlayer.chunkEntry_none fun m' hm' => ?_
    rcases List.mem_cons.mp hm' with rfl | hm'
    · exact hm
    · have hlt := UInt32.lt_iff_toNat_lt.mp ((List.pairwise_cons.mp h).1 m' hm')
      omega

/-- Chunks from the first described one on have an entry. -/
theorem exists_chunkEntry (hk : k < n) (h : described n rows ≤ k) :
    ∃ m, chunkEntry rows k = some m := by
  cases rows with
  | nil => exact absurd hk (by simpa [described] using h)
  | cons m rows =>
    have hm : m.first.toNat ≤ k := by
      rw [described_cons] at h
      omega
    rw [chunkEntry_cons, if_pos hm]
    cases chunkEntry rows k with
    | none => exact ⟨m, rfl⟩
    | some e => exact ⟨e, rfl⟩

theorem ffmin_eq {m : MovChunkmap} (hn : n < 0x80000000) (rows : List MovChunkmap) :
    cInt (ffmin m.first n).toNat = described n (m :: rows) := by
  have hof : (UInt32.ofInt n).toNat = n := by
    unfold UInt32.ofInt
    rw [UInt32.toNat_ofNat']
    omega
  have hm : (ffmin m.first n).toNat = min m.first.toNat n := by
    unfold ffmin
    split
    · rename_i h
      rw [UInt32.lt_iff_toNat_lt, hof] at h
      rw [hof]
      omega
    · rename_i h
      rw [UInt32.lt_iff_toNat_lt, hof] at h
      omega
  rw [hm]
  exact cInt_of_lt (by omega)

theorem cInt_first (m : MovChunkmap) (k : Nat) (hk : k < 0x80000000) :
    (0 ≤ cInt m.first.toNat ∧ cInt m.first.toNat ≤ k) ↔ m.first.toNat ≤ k := by
  have hlt := m.first.toNat_lt
  unfold cInt
  omega

/-- One more entry processed describes the chunks that no later entry does. -/
theorem Ascending.describe {m : MovChunkmap} (h : Ascending (m :: rows)) (hn : n < 0x80000000)
    (hk : k < n) (c : MovChunk) :
    (chunkEntry (m :: rows) k).elim c c.describe =
      if 0 ≤ cInt m.first.toNat ∧ cInt m.first.toNat ≤ k ∧ k < described n rows then c.describe m
      else (chunkEntry rows k).elim c c.describe := by
  rw [chunkEntry_cons]
  by_cases hlast : k < described n rows
  · rw [h.tail.chunkEntry_none hlast]
    by_cases hm : m.first.toNat ≤ k
    · have hfirst := (cInt_first m k (by omega)).mpr hm
      rw [if_pos hm, if_pos ⟨hfirst.1, hfirst.2, hlast⟩]
      rfl
    · rw [if_neg hm, if_neg fun hc => hm ((cInt_first m k (by omega)).mp ⟨hc.1, hc.2.1⟩)]
      rfl
  · obtain ⟨e, he⟩ := exists_chunkEntry hk (Nat.le_of_not_lt hlast)
    have hnot : ¬(0 ≤ cInt m.first.toNat ∧ cInt m.first.toNat ≤ k ∧ k < described n rows) :=
      fun hc => hlast hc.2.2
    rw [he, if_neg hnot]
    rfl

/-- The chunk map describes every chunk by its entry. -/
theorem MovTrack.Sized.processChunkmap (h : t.Sized) : Gives may (processChunkmap t) fun cs =>
    cs.length = t.chunks.length ∧ (Ascending t.chunkmap → ∀ k, cs[k]? =
      t.chunks[k]?.map fun c => (chunkEntry t.chunkmap k).elim c c.describe) := by
  have hn := h.chunks.isInt
  have hloop : Gives may (loop (chunkmapTurn t) turns ⟨t.chunkmapSize, t.chunksSize, t.chunks⟩)
      fun s => s.chunks.length = t.chunks.length ∧ (Ascending t.chunkmap → ∀ k, s.chunks[k]? =
        t.chunks[k]?.map fun c => (chunkEntry t.chunkmap k).elim c c.describe) := by
    refine Gives.loop (I := fun s : ChunkmapLoop => ∃ i : Nat, s.i = i ∧ i ≤ t.chunkmap.length ∧
        s.last = described t.chunks.length (t.chunkmap.drop i) ∧
        s.chunks.length = t.chunks.length ∧ (Ascending t.chunkmap → ∀ k, s.chunks[k]? =
          t.chunks[k]?.map fun c => (chunkEntry (t.chunkmap.drop i) k).elim c c.describe))
      (fun s => s.i.toNat) ?_ ⟨t.chunkmap.length, h.chunkmap.size, Nat.le_refl _, ?_, rfl, ?_⟩ ?_
    · rintro ⟨_, last, cs⟩ ⟨i, rfl, hi, hlast, hlen, hcs⟩
      dsimp only at hlast hlen hcs
      unfold chunkmapTurn
      cases i with
      | zero =>
        rw [if_neg (by dsimp only; omega)]
        rw [List.drop_zero] at hcs
        exact Gives.ok ⟨hlen, hcs⟩
      | succ i =>
        rw [if_pos (by dsimp only; omega)]
        have hm : t.chunkmap[i]? = some t.chunkmap[i] := List.getElem?_eq_getElem hi
        have hdrop : t.chunkmap.drop i = t.chunkmap[i] :: t.chunkmap.drop (i + 1) :=
          List.drop_eq_getElem_cons hi
        have hpred : ((i + 1 : Nat) : Int) - 1 = i := by omega
        dsimp only
        rw [hpred, fetch_eq hm, ok_bind, hlast, h.chunks.size]
        refine (describe_gives t.chunkmap[i] _
          (hlen ▸ described_le t.chunks.length _) (hlen ▸ hn)).bind ?_
        rintro ⟨_, ys⟩ ⟨hys, hyk⟩
        refine Gives.ok ⟨⟨i, rfl, by omega, ?_, hys.trans hlen, fun hasc k => ?_⟩, ?_⟩
        · rw [hdrop]
          exact ffmin_eq hn _
        · have hasc' : Ascending (t.chunkmap[i] :: t.chunkmap.drop (i + 1)) := by
            rw [← hdrop]
            exact hasc.drop
          dsimp only at hyk
          dsimp only
          rw [hyk k, hcs hasc k, hdrop]
          cases hk : t.chunks[k]? with
          | none =>
            split
            · rfl
            · rfl
          | some c =>
            have hlt := (List.getElem?_eq_some_iff.mp hk).1
            simp only [Option.map_some]
            rw [hasc'.describe hn hlt c]
            split
            · rename_i hc
              rw [hasc'.tail.chunkEntry_none hc.2.2]
              rfl
            · rfl
        · dsimp only
          omega
    · rw [List.drop_length]
      exact h.chunks.size
    · intro _ k
      rw [List.drop_length]
      cases t.chunks[k]? with
      | none => rfl
      | some c => rfl
    · dsimp only
      rw [h.chunkmap.size, Int.toNat_natCast]
      exact lt_turns h.chunkmap.isInt
  exact hloop.bind fun _ hs => hs

/-! ## Counting -/

/-- The number of samples of a chunk. -/
def MovChunk.count (c : MovChunk) : Nat := c.size.toNat

/-- The number of samples of an entry of the duration table. -/
def MovDurmap.count (r : MovDurmap) : Nat := r.num.toNat

/-- The chunks are numbered by the samples before them. -/
theorem number_gives {cs : List MovChunk} {n : Int} (h : Fits cs n) :
    Gives may (loop (numberTurn n) turns ⟨0, 0, cs⟩) fun l =>
      l.s = cInt (starts MovChunk.count cs cs.length) ∧ l.chunks = cs.mapIdx fun k c =>
        { c with sample := UInt32.ofNat (starts MovChunk.count cs k) } := by
  let f (k : Nat) (c : MovChunk) : MovChunk :=
    { c with sample := UInt32.ofNat (starts MovChunk.count cs k) }
  refine Gives.loop (I := fun l : NumberLoop => ∃ j : Nat, l.j = j ∧ j ≤ cs.length ∧
      l.s = cInt (starts MovChunk.count cs j) ∧ Swept f cs 0 j l.chunks)
    (fun l => cs.length - l.j.toNat) ?_
    ⟨0, rfl, Nat.zero_le _, ?_, Swept.start f cs 0⟩ (lt_turns (Nat.lt_of_le_of_lt (Nat.sub_le _ _)
      h.isInt))
  · rintro ⟨_, s, ys⟩ ⟨j, rfl, hj, hs, hswept⟩
    dsimp only at hs hswept
    unfold numberTurn
    split
    · rename_i hlt
      obtain ⟨c, hc⟩ := h.get hlt
      have hy : ys[j]? = some c := hswept.fresh.trans hc
      have hlt' := (List.getElem?_eq_some_iff.mp hc).1
      have hset : (ys.set j (f j c))[j]? = some (f j c) := by
        rw [List.getElem?_set_self]
        rw [hswept.1]
        exact hlt'
      have hsample : UInt32.ofInt s = UInt32.ofNat (starts MovChunk.count cs j) := by
        rw [hs, ofInt_cInt]
      dsimp only
      rw [amend_eq hy, ok_bind, hsample]
      dsimp only [f] at hset
      rw [fetch_eq hset, ok_bind]
      refine Gives.ok ⟨⟨j + 1, rfl, hlt', ?_, hswept.succ (Nat.zero_le j) hy⟩, ?_⟩
      · dsimp only
        rw [hs, cInt_add, starts_succ hc, Int.natCast_add]
        rfl
      · dsimp only
        omega
    · rename_i hlt
      have hend : j = cs.length := by
        have := h.size
        dsimp only at hlt
        omega
      subst hend
      exact Gives.ok ⟨hs, hswept.all (Nat.le_refl _)⟩
  · rw [starts_zero]
    exact cInt_zero.symm

/-- The samples of the duration table are counted. -/
theorem MovTrack.Sized.count_gives (h : t.Sized) :
    Gives may (loop (countTurn t) turns (0, 0)) fun l =>
      l.2 = cInt (starts MovDurmap.count t.durmap t.durmap.length) := by
  refine Gives.loop (I := fun l : Int × Int => ∃ j : Nat, l.1 = j ∧ j ≤ t.durmap.length ∧
      l.2 = cInt (starts MovDurmap.count t.durmap j))
    (fun l => t.durmap.length - l.1.toNat) ?_ ⟨0, rfl, Nat.zero_le _, ?_⟩
    (lt_turns (Nat.lt_of_le_of_lt (Nat.sub_le _ _) h.durmap.isInt))
  · rintro ⟨_, s⟩ ⟨j, rfl, hj, hs⟩
    dsimp only at hs
    unfold countTurn
    split
    · rename_i hlt
      obtain ⟨r, hr⟩ := h.durmap.get hlt
      have hlt' := (List.getElem?_eq_some_iff.mp hr).1
      dsimp only
      rw [fetch_eq hr, ok_bind]
      refine Gives.ok ⟨⟨j + 1, rfl, hlt', ?_⟩, ?_⟩
      · dsimp only
        rw [hs, cInt_add, starts_succ hr, Int.natCast_add]
        rfl
      · dsimp only
        omega
    · rename_i hlt
      have hend : j = t.durmap.length := by
        have := h.durmap.size
        dsimp only at hlt
        omega
      subst hend
      exact Gives.ok hs
  · rw [starts_zero]
    exact cInt_zero.symm

/-! ## Times -/

/-- The duration of every sample. -/
def durations (rows : List MovDurmap) : List Nat :=
  (expand MovDurmap.count rows).map fun r => r.dur.toNat

/-- The time of a sample: what the samples before it take. -/
def timeOf (rows : List MovDurmap) (k : Nat) : Nat := ((durations rows).take k).sum

theorem timeOf_succ {rows : List MovDurmap} {r : MovDurmap} {i : Nat} (hr : rows[j]? = some r)
    (hi : i < r.count) : timeOf rows (starts MovDurmap.count rows j + i + 1) =
      timeOf rows (starts MovDurmap.count rows j + i) + r.dur.toNat := by
  have hd : (durations rows)[starts MovDurmap.count rows j + i]? = some r.dur.toNat := by
    unfold durations
    rw [List.getElem?_map, expand_at hr hi]
    rfl
  unfold timeOf
  rw [List.take_add_one, hd, List.sum_append]
  rfl

/-- A sample with its time. -/
def MovSample.at (rows : List MovDurmap) (k : Nat) (x : MovSample) : MovSample :=
  { x with pts := UInt32.ofNat (timeOf rows k) }

/-- The samples up to `s` have their times, and `pts` is the time of the next. -/
def Timed (t : MovTrack) (pts : UInt32) (s : Int) (ys : List MovSample) (goal : Nat) : Prop :=
  ∃ m : Nat, s = m ∧ m = min goal t.samples.length ∧ pts = UInt32.ofNat (timeOf t.durmap m) ∧
    Swept (MovSample.at t.durmap) t.samples 0 m ys

/-- The loop over the samples of a duration. -/
theorem MovTrack.Sized.duration_gives (h : t.Sized) {r : MovDurmap} (hr : t.durmap[j]? = some r)
    {pts : UInt32} {s : Int} {ys : List MovSample}
    (hT : Timed t pts s ys (starts MovDurmap.count t.durmap j)) :
    Gives may (loop (durationTurn t r) turns (pts, ⟨0, s, ys⟩)) fun l =>
      Timed t l.1 l.2.s l.2.samples (starts MovDurmap.count t.durmap (j + 1)) := by
  have hsize := h.samples.size
  refine Gives.loop (I := fun l : UInt32 × SampleLoop => ∃ i : Nat, l.2.i = i ∧ i ≤ r.count ∧
      Timed t l.1 l.2.s l.2.samples (starts MovDurmap.count t.durmap j + i))
    (fun l => t.samples.length - l.2.s.toNat) ?_ ⟨0, rfl, Nat.zero_le _, hT⟩
    (lt_turns (Nat.lt_of_le_of_lt (Nat.sub_le _ _) h.samples.isInt))
  rintro ⟨p, ⟨_, _, zs⟩⟩ ⟨i, rfl, hi, m, rfl, hm, rfl, hswept⟩
  dsimp only at hm hswept
  rw [starts_succ hr]
  unfold durationTurn
  split
  · rename_i hlt
    have hlt' : i < r.count := Int.ofNat_lt.mp hlt
    split
    · rename_i hfull
      dsimp only at hfull
      exact Gives.ok ⟨m, rfl, by omega, rfl, hswept⟩
    · rename_i hfull
      dsimp only at hfull
      obtain ⟨x, hx⟩ := h.samples.get (i := m) (by omega)
      have hmi : m = starts MovDurmap.count t.durmap j + i := by omega
      dsimp only
      rw [amend_eq (hswept.fresh.trans hx), ok_bind]
      refine Gives.ok ⟨⟨i + 1, rfl, hlt', m + 1, rfl, by omega, ?_, ?_⟩, ?_⟩
      · rw [hmi, timeOf_succ hr hlt', UInt32.ofNat_add, UInt32.ofNat_toNat]
      · exact hswept.succ (Nat.zero_le m) (hswept.fresh.trans hx)
      · dsimp only
        omega
  · rename_i hlt
    have hend : i = r.count := by
      have : ¬i < r.count := fun h => hlt (Int.ofNat_lt.mpr h)
      omega
    exact Gives.ok ⟨m, rfl, hend ▸ hm, rfl, hswept⟩

/-- Every sample of the duration table gets its time. -/
theorem MovTrack.Sized.calcPts (h : t.Sized) : Gives may (calcPts t) fun ys =>
    Swept (MovSample.at t.durmap) t.samples 0
      (min (starts MovDurmap.count t.durmap t.durmap.length) t.samples.length) ys := by
  have hsize := h.durmap.size
  have hloop : Gives may (loop (durmapTurn t) turns (0, 0, ⟨0, 0, t.samples⟩)) fun l =>
      Timed t l.2.1 l.2.2.s l.2.2.samples (starts MovDurmap.count t.durmap t.durmap.length) := by
    refine Gives.loop (I := fun l : Int × UInt32 × SampleLoop => ∃ j : Nat, l.1 = j ∧
        j ≤ t.durmap.length ∧
        Timed t l.2.1 l.2.2.s l.2.2.samples (starts MovDurmap.count t.durmap j))
      (fun l => t.durmap.length - l.1.toNat) ?_ ⟨0, rfl, Nat.zero_le _, 0, rfl, ?_, rfl,
        Swept.start _ _ _⟩ (lt_turns (Nat.lt_of_le_of_lt (Nat.sub_le _ _) h.durmap.isInt))
    · rintro ⟨_, p, s⟩ ⟨j, rfl, hj, hT⟩
      unfold durmapTurn
      split
      · rename_i hlt
        obtain ⟨r, hr⟩ := h.durmap.get hlt
        have hlt' := (List.getElem?_eq_some_iff.mp hr).1
        dsimp only
        rw [fetch_eq hr, ok_bind]
        refine (h.duration_gives hr hT).bind fun l hl => ?_
        refine Gives.ok ⟨⟨j + 1, rfl, hlt', hl⟩, ?_⟩
        dsimp only
        omega
      · rename_i hlt
        have hend : j = t.durmap.length := by
          dsimp only at hlt
          omega
        subst hend
        exact Gives.ok hT
    · rw [starts_zero, Nat.zero_min]
  refine hloop.bind fun l hl => ?_
  obtain ⟨m, _, rfl, _, hswept⟩ := hl
  exact hswept

/-! ## Positions -/

/-- A position, moved on by some sizes. -/
def walk (pos : Int) (sizes : List UInt32) : Int :=
  sizes.foldl (fun p z => offT (p + z.toNat)) pos

theorem walk_concat (pos : Int) (sizes : List UInt32) (z : UInt32) :
    walk pos (sizes ++ [z]) = offT (walk pos sizes + z.toNat) := by
  unfold walk
  rw [List.foldl_append]
  rfl

/-- The position of a sample: that of its chunk, moved on by the samples before it there. -/
def placeOf : List MovChunk → List UInt32 → Nat → Int
  | [], _, _ => 0
  | c :: cs, sizes, k =>
    if k < c.count then walk c.pos (sizes.take k)
    else placeOf cs (sizes.drop c.count) (k - c.count)

theorem placeOf_at : {cs : List MovChunk} → {sizes : List UInt32} → {j i : Nat} → {c : MovChunk} →
    cs[j]? = some c → i < c.count → placeOf cs sizes (starts MovChunk.count cs j + i) =
      walk c.pos ((sizes.drop (starts MovChunk.count cs j)).take i)
  | b :: cs, sizes, 0, i, c, h, hi => by
    cases Option.some.inj h
    rw [starts_zero, Nat.zero_add, placeOf, if_pos hi, List.drop_zero]
  | b :: cs, sizes, j + 1, i, c, h, hi => by
    have ih : placeOf cs (sizes.drop b.count) (starts MovChunk.count cs j + i) = _ :=
      placeOf_at h hi
    rw [starts_cons, placeOf, if_neg (by omega), ← List.drop_drop, ← ih]
    congr 1
    omega

/-- The sizes of the samples. -/
def MovTrack.sizes (t : MovTrack) : List UInt32 := t.samples.map MovSample.size

/-- A sample with its position. -/
def MovSample.in (cs : List MovChunk) (sizes : List UInt32) (k : Nat) (x : MovSample) : MovSample :=
  { x with pos := placeOf cs sizes k }

/-- The samples up to `s` have their positions. -/
def Placed (t : MovTrack) (s : Int) (ys : List MovSample) (goal : Nat) : Prop :=
  ∃ m : Nat, s = m ∧ m = min goal t.samples.length ∧
    Swept (MovSample.in t.chunks t.sizes) t.samples 0 m ys

/-- The loop over the samples of a chunk. -/
theorem MovTrack.Sized.offset_gives (h : t.Sized) {c : MovChunk} (hc : t.chunks[j]? = some c)
    {s : Int} {ys : List MovSample} (hT : Placed t s ys (starts MovChunk.count t.chunks j)) :
    Gives may (loop (offsetTurn t c) turns (c.pos, ⟨0, s, ys⟩)) fun l =>
      Placed t l.2.s l.2.samples (starts MovChunk.count t.chunks (j + 1)) := by
  have hsize := h.samples.size
  refine Gives.loop (I := fun l : Int × SampleLoop => ∃ i : Nat, l.2.i = i ∧ i ≤ c.count ∧
      (starts MovChunk.count t.chunks j + i ≤ t.samples.length →
        l.1 = walk c.pos ((t.sizes.drop (starts MovChunk.count t.chunks j)).take i)) ∧
      Placed t l.2.s l.2.samples (starts MovChunk.count t.chunks j + i))
    (fun l => t.samples.length - l.2.s.toNat) ?_ ⟨0, rfl, Nat.zero_le _, fun _ => rfl, hT⟩
    (lt_turns (Nat.lt_of_le_of_lt (Nat.sub_le _ _) h.samples.isInt))
  rintro ⟨p, ⟨_, _, zs⟩⟩ ⟨i, rfl, hi, hp, m, rfl, hm, hswept⟩
  dsimp only at hm hswept hp
  rw [starts_succ hc]
  unfold offsetTurn
  split
  · rename_i hlt
    have hlt' : i < c.count := Int.ofNat_lt.mp hlt
    split
    · rename_i hfull
      dsimp only at hfull
      exact Gives.ok ⟨m, rfl, by omega, hswept⟩
    · rename_i hfull
      dsimp only at hfull
      obtain ⟨x, hx⟩ := h.samples.get (i := m) (by omega)
      have hmi : m = starts MovChunk.count t.chunks j + i := by omega
      have hy := hswept.fresh.trans hx
      have hlt'' := (List.getElem?_eq_some_iff.mp hx).1
      have hpos : p = placeOf t.chunks t.sizes m := by
        rw [hp (by omega), hmi, placeOf_at hc hlt']
      have hset : (zs.set m { x with pos := p })[m]? = some { x with pos := p } := by
        rw [List.getElem?_set_self]
        rw [hswept.1]
        exact hlt''
      have hz : (t.sizes.drop (starts MovChunk.count t.chunks j))[i]? = some x.size := by
        unfold MovTrack.sizes
        rw [List.getElem?_drop, ← hmi, List.getElem?_map, hx]
        rfl
      dsimp only
      rw [amend_eq hy, ok_bind, fetch_eq hset, ok_bind]
      refine Gives.ok ⟨⟨i + 1, rfl, hlt', fun _ => ?_, m + 1, rfl, by omega, ?_⟩, ?_⟩
      · dsimp only
        rw [List.take_add_one, hz, Option.toList_some, walk_concat, hp (by omega)]
      · rw [hpos]
        exact hswept.succ (Nat.zero_le m) hy
      · dsimp only
        omega
  · rename_i hlt
    have hend : i = c.count := by
      have : ¬i < c.count := fun h => hlt (Int.ofNat_lt.mpr h)
      omega
    exact Gives.ok ⟨m, rfl, hend ▸ hm, hswept⟩

/-- Every sample of a chunk gets its position. -/
theorem MovTrack.Sized.calcOffsets (h : t.Sized) : Gives may (calcOffsets t) fun ys =>
    Swept (MovSample.in t.chunks t.sizes) t.samples 0
      (min (starts MovChunk.count t.chunks t.chunks.length) t.samples.length) ys := by
  have hsize := h.chunks.size
  have hloop : Gives may (loop (chunkTurn t) turns (0, ⟨0, 0, t.samples⟩)) fun l =>
      Placed t l.2.s l.2.samples (starts MovChunk.count t.chunks t.chunks.length) := by
    refine Gives.loop (I := fun l : Int × SampleLoop => ∃ j : Nat, l.1 = j ∧
        j ≤ t.chunks.length ∧ Placed t l.2.s l.2.samples (starts MovChunk.count t.chunks j))
      (fun l => t.chunks.length - l.1.toNat) ?_ ⟨0, rfl, Nat.zero_le _, 0, rfl, ?_,
        Swept.start _ _ _⟩ (lt_turns (Nat.lt_of_le_of_lt (Nat.sub_le _ _) h.chunks.isInt))
    · rintro ⟨_, s⟩ ⟨j, rfl, hj, hT⟩
      unfold chunkTurn
      split
      · rename_i hlt
        obtain ⟨c, hc⟩ := h.chunks.get hlt
        have hlt' := (List.getElem?_eq_some_iff.mp hc).1
        dsimp only
        rw [fetch_eq hc, ok_bind]
        refine (h.offset_gives hc hT).bind fun l hl => ?_
        refine Gives.ok ⟨⟨j + 1, rfl, hlt', hl⟩, ?_⟩
        dsimp only
        omega
      · rename_i hlt
        have hend : j = t.chunks.length := by
          dsimp only at hlt
          omega
        subst hend
        exact Gives.ok hT
    · rw [starts_zero, Nat.zero_min]
  refine hloop.bind fun l hl => ?_
  obtain ⟨m, _, rfl, hswept⟩ := hl
  exact hswept

/-! ## The edit list -/

/-- A search ends at a sample or after the last one. -/
theorem MovTrack.Sized.search_gives (h : t.Sized) (found : UInt32 → Bool)
    (hk : k ≤ t.samples.length) : Gives may (loop (searchTurn t found) turns k) fun s =>
      ∃ m : Nat, s = m ∧ m ≤ t.samples.length := by
  have hsize := h.samples.size
  refine Gives.loop (I := fun s : Int => ∃ m : Nat, s = m ∧ m ≤ t.samples.length)
    (fun s => t.samples.length - s.toNat) ?_ ⟨k, rfl, hk⟩
    (lt_turns (Nat.lt_of_le_of_lt (Nat.sub_le _ _) h.samples.isInt))
  rintro _ ⟨m, rfl, hm⟩
  unfold searchTurn
  split
  · rename_i hlt
    obtain ⟨x, hx⟩ := h.samples.get hlt
    rw [fetch_eq hx, ok_bind]
    split
    · exact Gives.ok ⟨m, rfl, hm⟩
    · refine Gives.ok ⟨⟨m + 1, rfl, by omega⟩, ?_⟩
      dsimp only
      omega
  · exact Gives.ok ⟨m, rfl, hm⟩

theorem divide_gives {a b : Int} (hmay : b = 0 → may .divide) :
    Gives may (divide a b) fun _ => True := by
  unfold divide
  split
  · rename_i hb
    exact hmay hb
  · trivial

/-- Working out the edit list stops at most at a division by the movie's time scale. -/
theorem MovTrack.Sized.precalcEditlist (h : t.Sized) {timescale : Int}
    (hmay : timescale = 0 → may .divide) : Gives may (precalcEditlist timescale t) fun t' =>
      ∃ el, t' = { t with editlist := el } := by
  have hsize := h.editlist.size
  have hsamples := h.samples.size
  have hloop : Gives may (loop (editTurn timescale t) turns ⟨0, 0, 0, t.editlist⟩)
      fun _ => True := by
    refine Gives.loop (I := fun l : EditLoop => ∃ i : Nat, l.i = i ∧
        l.editlist.length = t.editlist.length) (fun l => t.editlist.length - l.i.toNat) ?_
      ⟨0, rfl, rfl⟩ (lt_turns (Nat.lt_of_le_of_lt (Nat.sub_le _ _) h.editlist.isInt))
    rintro ⟨_, frame, e, els⟩ ⟨i, rfl, hlen⟩
    dsimp only at hlen
    have hnext {frame' e' : Int} {els' : List MovEditlist} (hi : (i : Int) < t.editlistSize)
        (hlen' : els'.length = els.length) : Gives may (.ok (.again ⟨i + 1, frame', e', els'⟩))
          (Turn.Keeps (fun l : EditLoop => ∃ i : Nat, l.i = i ∧
            l.editlist.length = t.editlist.length) (fun _ => True)
            (fun l => t.editlist.length - l.i.toNat) ⟨i, frame, e, els⟩) := by
      refine Gives.ok ⟨⟨i + 1, rfl, hlen'.trans hlen⟩, ?_⟩
      dsimp only
      omega
    unfold editTurn
    split
    · rename_i hlt
      dsimp only at hlt
      have hlt' : i < els.length := by omega
      have hel : els[i]? = some els[i] := List.getElem?_eq_getElem hlt'
      dsimp only
      rw [fetch_eq hel, ok_bind]
      split
      · rw [store_eq hlt', ok_bind]
        exact hnext hlt List.length_set
      · refine (h.search_gives _ (k := 0) (Nat.zero_le _)).bind ?_
        rintro _ ⟨m, rfl, hm⟩
        split
        · rw [store_eq hlt', ok_bind]
          exact hnext hlt List.length_set
        · rename_i hfound
          obtain ⟨x, hx⟩ := h.samples.get (i := m) (by omega)
          rw [fetch_eq hx, ok_bind]
          refine (divide_gives hmay).bind fun offset _ => ?_
          refine (divide_gives hmay).bind fun length _ => ?_
          refine (h.search_gives _ hm).bind ?_
          rintro last -
          rw [store_eq hlt', ok_bind]
          exact hnext hlt List.length_set
    · exact Gives.ok trivial
  exact hloop.bind fun l _ => ⟨l.editlist, rfl⟩

end MPlayer
