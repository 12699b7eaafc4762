import Mathlib.Algebra.BigOperators.Group.List.Basic
import Mathlib.Data.List.TakeDrop
import MPlayer.Avi.Seeking
import Mathlib.Algebra.Ring.Int.Defs

/-!
# The audio position behind a seek

Behind the search `pack_no`, `dpos` and `audio_block_no` are to say what is in front of
`audio_chunk_pos`.  The search for a byte stops in front of the chunk that holds it.  The one for a
block has already counted the chunk that it stops at, and `audio_chunk_pos` is the last chunk that
was counted.
-/

namespace MPlayer.AviDemux

namespace IndexEntry

/-- The length of a chunk in bytes. -/
def length (e : IndexEntry) : Int := e.dwChunkLength.toNat

/-- The blocks that a chunk fills. -/
def blockCount (size : Nat) (e : IndexEntry) : Int :=
  ((e.dwChunkLength.toNat + size - 1) / size : Nat)

/-- The length and the number of blocks can be computed in `int`. -/
def Fits (size : Nat) (e : IndexEntry) : Prop := e.length + size ≤ 2 ^ 31

instance (size : Nat) (e : IndexEntry) : Decidable (e.Fits size) :=
  inferInstanceAs (Decidable (_ ≤ _))

section Lengths

variable (e : IndexEntry) {size : Nat}

theorem length_lt : 0 ≤ e.length ∧ e.length < 2 ^ 32 := by
  have hlt : e.dwChunkLength.toNat < 2 ^ 32 := e.dwChunkLength.toNat_lt
  unfold length
  omega

theorem len_eq (h : e.length < 2 ^ 31) : e.len = e.length := by
  have hpos := e.length_lt.1
  exact Int.bmod_eq_of_le (by unfold length at hpos; omega) (by unfold length at h; omega)

theorem len_neg (h : 2 ^ 31 ≤ e.length) : e.len = e.length - 2 ^ 32 := by
  have hlt := e.length_lt.2
  unfold length at h hlt ⊢
  unfold len
  rw [Int.bmod_def, if_neg (by omega)]
  omega

variable {e}

theorem Fits.len (hsize : 0 < size) (h : e.Fits size) : e.len = e.length := by
  unfold Fits at h
  exact e.len_eq (by omega)

theorem Fits.blocks (hsize : 0 < size) (h : e.Fits size) : e.blocks size = e.blockCount size := by
  have hlen := h.len hsize
  have hpos := e.length_lt.1
  unfold Fits at h
  unfold IndexEntry.blocks blockCount
  rw [hlen, Int.bmod_eq_of_le (by omega) (by omega)]
  unfold length at hpos ⊢
  rw [show (e.dwChunkLength.toNat : Int) + size - 1 =
    ((e.dwChunkLength.toNat + size - 1 : Nat) : Int) by omega]
  rfl

theorem tdiv_nonpos {a b : Int} (ha : a ≤ 0) (hb : 0 ≤ b) : a.tdiv b ≤ 0 := by
  have hneg := Int.tdiv_nonneg (Int.neg_nonneg_of_nonpos ha) hb
  rw [Int.neg_tdiv] at hneg
  omega

/-- A length that is too large makes one of the sums too small. -/
theorem blocks_lt (hsize : 0 < size) (hlt : size < 2 ^ 31) (h : ¬e.Fits size) :
    e.len ≤ e.length ∧ e.blocks size ≤ e.blockCount size ∧
      e.len + e.blocks size < e.length + e.blockCount size := by
  have hlength := e.length_lt
  have hcount : 0 ≤ e.blockCount size := Int.natCast_nonneg _
  unfold Fits at h
  by_cases hbig : 2 ^ 31 ≤ e.length
  · have hlen := e.len_neg hbig
    have hblocks : e.blocks size ≤ 0 := by
      unfold IndexEntry.blocks
      rw [Int.bmod_eq_of_le (by omega) (by omega)]
      by_cases hneg : e.len + size - 1 ≤ 0
      · exact tdiv_nonpos hneg (by omega)
      · exact Int.le_of_eq (Int.tdiv_eq_zero_of_lt (by omega) (by omega))
    omega
  · have hlen := e.len_eq (by omega)
    have hblocks : e.blocks size ≤ 0 := by
      unfold IndexEntry.blocks
      rw [hlen, Int.bmod_def, if_neg (by omega)]
      exact tdiv_nonpos (by omega) (by omega)
    have hone : 1 ≤ e.blockCount size := by
      unfold blockCount
      unfold length at h hbig
      have hdiv : 1 ≤ (e.dwChunkLength.toNat + size - 1) / size :=
        (Nat.one_le_div_iff hsize).mpr (by omega)
      exact_mod_cast hdiv
    omega

end Lengths

end IndexEntry

/-! ## What a position says -/

section Counting

variable {size : Nat} {es : List IndexEntry} {p : AudioPosition}

/-- The position behind the chunks in a list. -/
def AudioPosition.behind (size : Nat) (p : AudioPosition) (es : List IndexEntry) :
    AudioPosition where
  packNo := p.packNo + es.length
  dpos := p.dpos + (es.map IndexEntry.length).sum
  blockNo := p.blockNo + (es.map (IndexEntry.blockCount size)).sum

theorem AudioPosition.count_eq {e : IndexEntry} (hsize : 0 < size) (h : e.Fits size) :
    p.count size e = p.behind size [e] := by
  simp [AudioPosition.count, AudioPosition.behind, h.len hsize, h.blocks hsize]

theorem AudioPosition.behind_cons (e : IndexEntry) (es : List IndexEntry) :
    p.behind size (e :: es) = (p.behind size [e]).behind size es := by
  simp [AudioPosition.behind]
  omega

/-- The counters never get too large. -/
theorem foldl_count_le (es : List IndexEntry) (hsize : 0 < size) (hlt : size < 2 ^ 31) :
    (es.foldl (AudioPosition.count size) p).dpos + (es.foldl (AudioPosition.count size) p).blockNo ≤
      (p.behind size es).dpos + (p.behind size es).blockNo := by
  induction es generalizing p with
  | nil => simp [AudioPosition.behind]
  | cons e es ih =>
    have hrest := ih (p := p.count size e)
    have hhead : e.len + e.blocks size ≤ e.length + e.blockCount size := by
      by_cases hfits : e.Fits size
      · exact Int.le_of_eq (by rw [hfits.len hsize, hfits.blocks hsize])
      · exact Int.le_of_lt (e.blocks_lt hsize hlt hfits).2.2
    rw [List.foldl_cons]
    simp only [AudioPosition.behind, AudioPosition.count, List.map_cons, List.sum_cons]
      at hrest ⊢
    omega

/-- The counters say what was counted if no chunk was too long. -/
theorem foldl_count_eq_iff (hsize : 0 < size) (hlt : size < 2 ^ 31) :
    es.foldl (AudioPosition.count size) p = p.behind size es ↔ ∀ e ∈ es, e.Fits size := by
  induction es generalizing p with
  | nil => simp [AudioPosition.behind]
  | cons e es ih =>
    rw [List.foldl_cons, List.forall_mem_cons]
    by_cases hfits : e.Fits size
    · rw [p.count_eq hsize hfits, AudioPosition.behind_cons e es, ih]
      exact (and_iff_right hfits).symm
    · refine iff_of_false (fun heq => ?_) fun hall => hfits hall.1
      have hle := foldl_count_le es (p := p.count size e) hsize hlt
      have hhead := e.blocks_lt hsize hlt hfits
      rw [heq] at hle
      simp only [AudioPosition.behind, AudioPosition.count, List.map_cons, List.sum_cons] at hle
      omega

end Counting

/-! ## The search for a byte -/

namespace AviFile

variable {f : AviFile} {size : Nat} {wanted : Int} {es : List IndexEntry}

/-- Up to the chunk of the audio stream that holds the byte `wanted` no chunk is too long,
from the byte `dpos` on. -/
def FitsUpTo (f : AviFile) (size : Nat) (wanted : Int) : List IndexEntry → Int → Prop
  | [], _ => True
  | e :: es, dpos =>
    if f.isAudio e then
      if dpos ≤ wanted ∧ wanted < dpos + e.length then e.length < 2 ^ 31
      else e.Fits size ∧ FitsUpTo f size wanted es (dpos + e.length)
    else FitsUpTo f size wanted es dpos

instance FitsUpTo.instDecidable : (es : List IndexEntry) → (dpos : Int) →
    Decidable (f.FitsUpTo size wanted es dpos)
  | [], _ => inferInstanceAs (Decidable True)
  | e :: es, dpos =>
    have _ := FitsUpTo.instDecidable es (dpos + e.length)
    have _ := FitsUpTo.instDecidable es dpos
    inferInstanceAs (Decidable (if f.isAudio e then
      if dpos ≤ wanted ∧ wanted < dpos + e.length then e.length < 2 ^ 31
      else e.Fits size ∧ FitsUpTo f size wanted es (dpos + e.length)
    else FitsUpTo f size wanted es dpos))

theorem seekConstant_spec (f : AviFile) (wanted : Int) (es : List IndexEntry) (hsize : 0 < size)
    (i : Nat) (p : AudioPosition) :
    ∃ k ≤ es.length, f.seekConstant size wanted es i p =
        (i + k, ((es.take k).filter f.isAudio).foldl (AudioPosition.count size) p) ∧
      ((∀ e ∈ (es.take k).filter f.isAudio, e.Fits size) ↔ f.FitsUpTo size wanted es p.dpos) := by
  induction es generalizing i p with
  | nil => exact ⟨0, Nat.le_refl _, rfl, by simp [FitsUpTo]⟩
  | cons e es ih =>
    simp only [seekConstant, FitsUpTo]
    by_cases haudio : f.isAudio e = true
    · rw [if_pos haudio, if_pos haudio]
      by_cases hfound : p.dpos ≤ wanted ∧ wanted < p.dpos + e.len
      · rw [if_pos hfound]
        have hlen : e.length < 2 ^ 31 := by
          refine Int.not_le.mp fun hbig => ?_
          have hneg := e.len_neg hbig
          have hlt := e.length_lt.2
          omega
        rw [← e.len_eq hlen, if_pos hfound]
        rw [← e.len_eq hlen] at hlen
        exact ⟨0, Nat.zero_le _, rfl, by simpa using hlen⟩
      · rw [if_neg hfound]
        obtain ⟨k, hk, heq, hiff⟩ := ih (i + 1) (p.count size e)
        refine ⟨k + 1, Nat.succ_le_succ hk, ?_, ?_⟩
        · rw [heq, List.take_succ_cons, List.filter_cons_of_pos haudio, List.foldl_cons]
          exact Prod.ext (by dsimp only; omega) rfl
        · rw [List.take_succ_cons, List.filter_cons_of_pos haudio, List.forall_mem_cons, hiff]
          by_cases hfits : e.Fits size
          · have hlen := hfits.len hsize
            rw [← hlen, if_neg hfound]
            rfl
          · split
            · next hspec =>
              refine iff_of_false (fun hall => hfits hall.1) fun hlen => hfound ?_
              rw [e.len_eq hlen]
              exact hspec
            · exact iff_of_false (fun hall => hfits hall.1) fun hall => hfits hall.1
    · rw [if_neg haudio, if_neg haudio]
      obtain ⟨k, hk, heq, hiff⟩ := ih (i + 1) p
      refine ⟨k + 1, Nat.succ_le_succ hk, ?_, ?_⟩
      · rw [heq, List.take_succ_cons, List.filter_cons_of_neg haudio]
        exact Prod.ext (by dsimp only; omega) rfl
      · rw [List.take_succ_cons, List.filter_cons_of_neg haudio, hiff]

/-! ## The search for a block -/

/-- Behind the last chunk that may be counted nothing changes the position. -/
theorem seekVariable_behind {chunkMax i : Nat} {chunks : Int} {a : AudioSeek}
    (h : ∀ k e, es[k]? = some e → f.isAudio e → chunkMax < i + k) :
    (f.seekVariable size chunkMax es i chunks a).chunkPos = a.chunkPos ∧
      (f.seekVariable size chunkMax es i chunks a).position = a.position := by
  induction es generalizing i chunks a with
  | nil => exact ⟨rfl, rfl⟩
  | cons e es ih =>
    have hrest : ∀ k e, es[k]? = some e → f.isAudio e → chunkMax < i + 1 + k := by
      intro k e' he haudio
      have hlt := h (k + 1) e' he haudio
      omega
    simp only [seekVariable]
    split
    · exact ⟨rfl, rfl⟩
    · split
      · next haudio =>
        rw [if_pos (show i > chunkMax from h 0 e rfl haudio)]
        exact ih hrest
      · exact ih hrest

/-- The chunk at `r.chunkPos` is the last one that was counted since `a`, from the entry `i` on. -/
def CountedLast (f : AviFile) (es : List IndexEntry) (i : Nat) (a r : AudioSeek) : Prop :=
  ∃ j e, es[j]? = some e ∧ f.isAudio e ∧ r.chunkPos = i + j ∧
    r.position.packNo = a.position.packNo + (es.take (j + 1)).countP f.isAudio

theorem CountedLast.passed {i : Nat} {a r : AudioSeek} {e : IndexEntry}
    (h : CountedLast f es (i + 1) a r) (hnot : ¬f.isAudio e) : CountedLast f (e :: es) i a r := by
  obtain ⟨j, e', he', haudio, hpos, hpack⟩ := h
  refine ⟨j + 1, e', he', haudio, by omega, ?_⟩
  rw [hpack, List.take_succ_cons, List.countP_cons_of_neg hnot]

theorem CountedLast.counted {i : Nat} {a r : AudioSeek} {e : IndexEntry}
    (h : CountedLast f es (i + 1) { a with chunkPos := i, position := a.position.count size e } r)
    (haudio₀ : f.isAudio e) : CountedLast f (e :: es) i a r := by
  obtain ⟨j, e', he', haudio, hpos, hpack⟩ := h
  refine ⟨j + 1, e', he', haudio, by omega, ?_⟩
  rw [hpack, List.take_succ_cons, List.countP_cons_of_pos haudio₀]
  simp only [AudioPosition.count]
  omega

/-- The search counts the chunk that it stops at, or none. -/
theorem seekVariable_cases (size chunkMax : Nat) (es : List IndexEntry) (i : Nat) (chunks : Int)
    (a : AudioSeek) :
    ((f.seekVariable size chunkMax es i chunks a).chunkPos = a.chunkPos ∧
        (f.seekVariable size chunkMax es i chunks a).position = a.position) ∨
      CountedLast f es i a (f.seekVariable size chunkMax es i chunks a) := by
  induction es generalizing i chunks a with
  | nil => exact .inl ⟨rfl, rfl⟩
  | cons e es ih =>
    simp only [seekVariable]
    by_cases hchunks : chunks ≤ 0
    · rw [if_pos hchunks]
      exact .inl ⟨rfl, rfl⟩
    rw [if_neg hchunks]
    by_cases haudio : f.isAudio e = true
    · rw [if_pos haudio]
      by_cases hmax : i > chunkMax
      · rw [if_pos hmax]
        exact .inl (seekVariable_behind fun k _ _ _ => by omega)
      · rw [if_neg hmax]
        obtain ⟨hpos, hposition⟩ | hcounted := ih (i + 1)
          (Int.bmod (chunks - e.blocks size) (2 ^ 32))
          { a with chunkPos := i, position := a.position.count size e }
        · refine .inr ⟨0, e, rfl, haudio, hpos, ?_⟩
          rw [hposition, List.take_succ_cons, List.countP_cons_of_pos haudio]
          simp [AudioPosition.count]
        · exact .inr (hcounted.counted haudio)
    · rw [if_neg haudio]
      obtain hsame | hcounted := ih (i + 1) chunks a
      · exact .inl hsame
      · exact .inr (hcounted.passed haudio)

/-- The search counts a chunk if one is wanted and there is one. -/
theorem seekVariable_counts {chunkMax i : Nat} {chunks : Int} {a : AudioSeek} {k : Nat}
    {e : IndexEntry} (hchunks : 0 < chunks) (he : es[k]? = some e) (haudio : f.isAudio e)
    (hmax : i + k ≤ chunkMax) :
    CountedLast f es i a (f.seekVariable size chunkMax es i chunks a) := by
  induction es generalizing i a k with
  | nil => cases he
  | cons e₀ es ih =>
    simp only [seekVariable]
    rw [if_neg (Int.not_le.mpr hchunks)]
    by_cases haudio₀ : f.isAudio e₀ = true
    · rw [if_pos haudio₀, if_neg (show ¬i > chunkMax by omega)]
      obtain ⟨hpos, hposition⟩ | hcounted := f.seekVariable_cases size chunkMax es (i + 1)
        (Int.bmod (chunks - e₀.blocks size) (2 ^ 32))
        { a with chunkPos := i, position := a.position.count size e₀ }
      · refine ⟨0, e₀, rfl, haudio₀, hpos, ?_⟩
        rw [hposition, List.take_succ_cons, List.countP_cons_of_pos haudio₀]
        simp [AudioPosition.count]
      · exact hcounted.counted haudio₀
    · rw [if_neg haudio₀]
      cases k with
      | zero =>
        cases he
        exact absurd haudio haudio₀
      | succ k => exact (ih he (by omega)).passed haudio₀

/-! ## Both searches -/

/-- The position says what is in front of `audio_chunk_pos`. -/
def AudioPositioned (f : AviFile) (h : AudioHeader) (a : AudioSeek) : Prop :=
  a.position = AudioPosition.start.behind h.blockSize ((f.idx.take a.chunkPos).filter f.isAudio)

/-- With a constant rate the chunks up to the wanted one are not too long, otherwise none is
counted. -/
def AudioMeets (f : AviFile) (h : AudioHeader) (chunkMax : Nat) (wanted : Int) : Prop :=
  if h.constantRate then f.FitsUpTo h.blockSize wanted (f.idx.take chunkMax) 0
  else wanted ≤ 0 ∨ ∀ e ∈ f.idx.take (chunkMax + 1), ¬f.isAudio e

instance (h : AudioHeader) (chunkMax : Nat) (wanted : Int) :
    Decidable (f.AudioMeets h chunkMax wanted) :=
  inferInstanceAs (Decidable (if h.constantRate then f.FitsUpTo _ _ _ _ else _ ∨ _))

theorem seekConstant_positioned_iff (h : AudioHeader) (chunkMax : Nat) (wanted : Int)
    (hrate : h.constantRate = true) :
    f.AudioPositioned h (f.seekAudio h chunkMax wanted) ↔
      f.FitsUpTo h.blockSize wanted (f.idx.take chunkMax) 0 := by
  obtain ⟨k, hk, heq, hiff⟩ := f.seekConstant_spec wanted (f.idx.take chunkMax) h.blockSize_pos 0
    AudioPosition.start
  unfold AudioPositioned seekAudio
  rw [if_pos hrate]
  dsimp only
  have htake : f.idx.take k = (f.idx.take chunkMax).take k := by
    rw [List.take_take]
    rw [List.length_take] at hk
    congr 1
    omega
  rw [heq, Nat.zero_add, htake, foldl_count_eq_iff h.blockSize_pos h.blockSize_lt]
  exact hiff

theorem seekVariable_positioned_iff (h : AudioHeader) (chunkMax : Nat) (wanted : Int)
    (hrate : h.constantRate ≠ true) :
    f.AudioPositioned h (f.seekAudio h chunkMax wanted) ↔
      (wanted ≤ 0 ∨ ∀ e ∈ f.idx.take (chunkMax + 1), ¬f.isAudio e) := by
  unfold AudioPositioned seekAudio
  rw [if_neg hrate]
  constructor
  · intro hposition
    by_contra hnot
    obtain ⟨hwanted, hsome⟩ := not_or.mp hnot
    simp only [not_forall, not_not] at hsome
    obtain ⟨e, hmem, haudio⟩ := hsome
    obtain ⟨k, hk, hget⟩ := List.getElem_of_mem hmem
    rw [List.length_take] at hk
    have he : f.idx[k]? = some e := by
      rw [← hget, List.getElem_take]
      exact List.getElem?_eq_getElem (by omega)
    have hlast : CountedLast f f.idx 0 ⟨0, .start, 0⟩
        (f.seekVariable h.blockSize chunkMax f.idx 0 wanted ⟨0, .start, 0⟩) :=
      seekVariable_counts (Int.not_le.mp hwanted) he haudio (by omega)
    obtain ⟨j, e', he', haudio', hpos, hpack⟩ := hlast
    rw [hposition, hpos, List.take_add_one, he', List.countP_append] at hpack
    simp [AudioPosition.behind, AudioPosition.start, List.countP_eq_length_filter, haudio'] at hpack
  · intro hmeets
    have hsame : (f.seekVariable h.blockSize chunkMax f.idx 0 wanted ⟨0, .start, 0⟩).chunkPos = 0 ∧
        (f.seekVariable h.blockSize chunkMax f.idx 0 wanted ⟨0, .start, 0⟩).position = .start := by
      cases hmeets with
      | inl hwanted =>
        cases hidx : f.idx with
        | nil => exact ⟨rfl, rfl⟩
        | cons e es =>
          simp only [seekVariable]
          rw [if_pos hwanted]
          exact ⟨rfl, rfl⟩
      | inr hnone =>
        refine seekVariable_behind fun k e he haudio => ?_
        by_contra hle
        refine hnone e ?_ haudio
        rw [List.mem_take_iff_getElem]
        obtain ⟨hk, hget⟩ := List.getElem?_eq_some_iff.mp he
        exact ⟨k, by omega, hget⟩
    rw [hsame.1, hsame.2]
    rfl

/-- Behind a seek the position of the audio stream says what is in front of `audio_chunk_pos`
only in these cases. -/
theorem seekAudio_positioned_iff (h : AudioHeader) (chunkMax : Nat) (wanted : Int) :
    f.AudioPositioned h (f.seekAudio h chunkMax wanted) ↔ f.AudioMeets h chunkMax wanted := by
  unfold AudioMeets
  split
  · next hrate => exact seekConstant_positioned_iff h chunkMax wanted hrate
  · next hrate => exact seekVariable_positioned_iff h chunkMax wanted hrate

end AviFile

end MPlayer.AviDemux
