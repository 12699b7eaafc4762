import MPlayer.Vobsub.Reading
import Mathlib.Data.List.Forall2

/-!
# Writing and reading back

The file of an output is a sequence of blocks, one for each packet (`SubBlock`).  The reader goes
over them one after another, and keeps the time of the last PTS field it has met.  The writer
leaves a field out when the call before it had the same time.  That call may have been for another
output, or its packet too long for a field, and then the reader keeps an older time.
-/

namespace MPlayer

open Lib

/-! ## Blocks -/

/-- The block of a packet. -/
structure SubBlock where
  pts : Option Nat
  pad : Nat
  aid : UInt8
  packet : List UInt8
  fill : List UInt8

/-- The length of the PES packet. -/
def SubBlock.dataLen (b : SubBlock) : Nat :=
  4 + (ptsField b.pts).length + b.pad + b.packet.length

def SubBlock.bytes (b : SubBlock) : List UInt8 :=
  packHeader ++ 0 :: 0 :: 1 :: 0xbd :: UInt8.ofNat (b.dataLen >>> 8) :: UInt8.ofNat b.dataLen ::
    0x80 :: ptsFlags b.pts :: UInt8.ofNat ((ptsField b.pts).length + b.pad) ::
    (ptsField b.pts ++ (List.replicate b.pad 0 ++ b.aid :: (b.packet ++ b.fill)))

/-- The reader passes over what fills a block. -/
inductive Fills : List UInt8 → Prop
  | zeros {k : Nat} (h : k ≤ 4) : Fills (List.replicate k 0)
  | padding {n : Nat} (h : n < 65536) :
      Fills (0 :: 0 :: 1 :: 0xbe :: UInt8.ofNat (n >>> 8) :: UInt8.ofNat n :: List.replicate n 0)

/-- A block that the writer can write. -/
structure SubBlock.Valid (b : SubBlock) : Prop where
  packet : b.packet ≠ []
  dataLen : b.dataLen < 65536
  pad : (ptsField b.pts).length + b.pad < 256
  pts : ∀ t, b.pts = some t → t < 2 ^ 32
  fill : Fills b.fill
  length : b.bytes.length = 2048

/-- All packets end below 4 GiB. -/
def EndsBelow : Nat → List SubBlock → Prop
  | _, [] => True
  | start, b :: blocks => start + 20 + b.dataLen < 2 ^ 32 ∧ EndsBelow (start + 2048) blocks

/-- What is read from the blocks, behind a PTS field with this time. -/
def readsOf : Nat → List SubBlock → List SpuRead
  | _, [] => []
  | pts, b :: blocks =>
    ⟨b.aid.toNat, b.packet, b.pts.getD pts⟩ :: readsOf (b.pts.getD pts) blocks

variable {file : List UInt8}

theorem SubBlock.bytes_length (b : SubBlock) : b.bytes.length =
    packHeader.length + 6 + b.dataLen + b.fill.length := by
  rw [SubBlock.bytes, SubBlock.dataLen]
  simp only [List.length_append, List.length_cons, List.length_replicate]
  omega

/-- The reader goes over the blocks. -/
theorem subReads_blocks : ∀ (blocks : List SubBlock) {p k : Nat} {mpeg : Mpeg},
    mpeg.StandsAt file p → k ≤ 4 → (∀ b ∈ blocks, b.Valid) →
    file.drop p = List.replicate k 0 ++ blocks.flatMap SubBlock.bytes →
    EndsBelow (p + k) blocks → SubReads mpeg (readsOf mpeg.pts blocks)
  | [], p, k, mpeg, h, hk, _, hfile, _ => by
    rw [List.flatMap_nil, List.append_nil] at hfile
    obtain ⟨mpeg', hrun, heof⟩ := mpegRun_end hk (h.rest.trans hfile)
    exact .eof hrun heof
  | b :: blocks, p, k, mpeg, h, hk, hvalid, hfile, hends => by
    have hb := hvalid b List.mem_cons_self
    have hlen := hb.length
    rw [b.bytes_length] at hlen
    rw [List.flatMap_cons, SubBlock.bytes, List.append_assoc] at hfile
    obtain ⟨mpeg1, hrun1, hpass1⟩ := mpegRun_pack h hk hfile
    rw [← List.append_assoc] at hfile
    have hfile1 := drop_behind _ hfile
    rw [List.length_append, List.length_replicate, ← Nat.add_assoc] at hfile1
    have hshape : file.drop (p + k + packHeader.length) = 0 :: 0 :: 1 :: 0xbd ::
        UInt8.ofNat (b.dataLen >>> 8) :: UInt8.ofNat b.dataLen :: 0x80 :: ptsFlags b.pts ::
        UInt8.ofNat ((ptsField b.pts).length + b.pad) :: (ptsField b.pts ++
          (List.replicate b.pad 0 ++ b.aid ::
            (b.packet ++ (b.fill ++ blocks.flatMap SubBlock.bytes)))) := by
      rw [hfile1]
      simp only [List.cons_append, List.append_assoc]
    have hheader : packHeader.length = 14 := rfl
    have hbelow : p + k + packHeader.length + 6 + b.dataLen < 2 ^ 32 := by
      have hend := hends.1
      omega
    have hdataLen : b.dataLen = 4 + (ptsField b.pts).length + b.pad + b.packet.length := rfl
    obtain ⟨mpeg2, hrun2, hstands2, hsize2, haid2, hpacket2, hpts2⟩ :=
      mpegRun_packet hpass1.stands hb.packet hdataLen hb.dataLen hbelow hb.pad hb.pts hshape
    have hsplit : file.drop (p + k + packHeader.length) = (0 :: 0 :: 1 :: 0xbd ::
        UInt8.ofNat (b.dataLen >>> 8) :: UInt8.ofNat b.dataLen :: 0x80 :: ptsFlags b.pts ::
        UInt8.ofNat ((ptsField b.pts).length + b.pad) :: (ptsField b.pts ++
          (List.replicate b.pad 0 ++ b.aid :: b.packet))) ++
            (b.fill ++ blocks.flatMap SubBlock.bytes) := by
      rw [hshape]
      simp only [List.cons_append, List.append_assoc]
    have hfile2 : file.drop (p + k + packHeader.length + 6 + b.dataLen) =
        b.fill ++ blocks.flatMap SubBlock.bytes := by
      rw [← drop_behind _ hsplit]
      congr 1
      simp only [List.length_append, List.length_cons, List.length_replicate, SubBlock.dataLen]
      omega
    have hrest : SubReads mpeg2 (readsOf mpeg2.pts blocks) := by
      have hfill := hb.fill
      generalize b.fill = fill at hfill hlen hfile2
      cases hfill with
      | @zeros k' hk' =>
        rw [List.length_replicate] at hlen
        refine subReads_blocks blocks hstands2 hk' (fun b' hb' =>
          hvalid b' (List.mem_cons_of_mem b hb')) hfile2 ?_
        have hnext : p + k + packHeader.length + 6 + b.dataLen + k' = p + k + 2048 := by omega
        exact hnext ▸ hends.2
      | @padding n hn =>
        simp only [List.length_cons, List.length_replicate] at hlen
        obtain ⟨mpeg3, hrun3, hpass3⟩ := mpegRun_padding hstands2 hn hfile2
        have hfile3 : file.drop (p + k + packHeader.length + 6 + b.dataLen + 6 + n) =
            blocks.flatMap SubBlock.bytes := by
          have hdrop := drop_behind _ hfile2
          simp only [List.length_cons, List.length_replicate] at hdrop
          rw [← hdrop]
          congr 1
          omega
        rw [← hpass3.pts]
        refine .skip hrun3 hpass3.packetSize (subReads_blocks blocks hpass3.stands
          (Nat.zero_le 4) (fun b' hb' => hvalid b' (List.mem_cons_of_mem b hb')) hfile3 ?_)
        have hnext : p + k + packHeader.length + 6 + b.dataLen + 6 + n + 0 = p + k + 2048 := by
          omega
        exact hnext ▸ hends.2
    have hpts : mpeg2.pts = b.pts.getD mpeg.pts := by rw [hpts2, hpass1.pts]
    rw [readsOf, ← hpts]
    refine .skip hrun1 hpass1.packetSize ?_
    have hpacket := SubReads.packet hrun2 (hsize2 ▸ List.length_pos_iff.mpr hb.packet) hrest
    rwa [haid2, hpacket2] at hpacket

/-! ## The writer -/

/-- The PTS field that is written, if the one of the call before does not make it the same. -/
def writtenPts (fresh : Bool) (len pts : Nat) : Option Nat :=
  if fresh ∧ len ≤ 2019 then some pts else none

/-- The PTS field that is asked for. -/
def askedLen (fresh : Bool) : Nat := if fresh then 5 else 0

/-- A layout of a packet: what remains of the block is nothing, a few bytes, or enough for
padding. -/
structure PesLayout.Fits (l : PesLayout) (field : Option Nat) (len : Nat) : Prop where
  ptsLen : l.ptsLen = (ptsField field).length
  dataLen : l.dataLen = 4 + l.ptsLen + l.padLen + len
  le : l.ptsLen + l.padLen + len ≤ 2024
  remain : 2020 ≤ l.ptsLen + l.padLen + len ∨ l.ptsLen + l.padLen + len ≤ 2017
  small : l.ptsLen + l.padLen < 256

theorem ptsField_written (fresh : Bool) (len pts : Nat) :
    (ptsField (writtenPts fresh len pts)).length = if fresh ∧ len ≤ 2019 then 5 else 0 := by
  rw [writtenPts]
  split
  · rfl
  · rfl

theorem pesLayout_fits {len : Nat} (h : len ≤ 2024) (fresh : Bool) (pts : Nat) :
    (pesLayout len (askedLen fresh)).Fits (writtenPts fresh len pts) len := by
  have hfield := ptsField_written fresh len pts
  have hheader : packHeader.length = 14 := rfl
  have hasked : askedLen fresh = 5 ∧ fresh = true ∨ askedLen fresh = 0 ∧ fresh = false := by
    cases fresh with
    | true => exact Or.inl ⟨rfl, rfl⟩
    | false => exact Or.inr ⟨rfl, rfl⟩
  rw [pesLayout, hheader]
  split
  next hbig =>
    have hnone : ¬(fresh = true ∧ len ≤ 2019) := by omega
    rw [if_neg hnone] at hfield
    exact ⟨hfield.symm, by simp only; omega, by simp only; omega, by simp only; omega,
      (by decide : 0 + 0 < 256)⟩
  next hfits =>
    have hlen : askedLen fresh = if fresh = true ∧ len ≤ 2019 then 5 else 0 := by
      rcases hasked with ⟨hasked, hfresh⟩ | ⟨hasked, hfresh⟩
      · rw [hasked, if_pos ⟨hfresh, by omega⟩]
      · rw [hasked, if_neg fun h => absurd (hfresh.symm.trans h.1) Bool.false_ne_true]
    split
    next hroom =>
      exact ⟨hlen.trans hfield.symm, by simp only; omega, by simp only; omega,
        by simp only; omega, by simp only; omega⟩
    next htight =>
      exact ⟨hlen.trans hfield.symm, by simp only; omega, by simp only; omega,
        by simp only; omega, by simp only; omega⟩

/-- The block that the writer makes of a packet. -/
def spuBlock (fresh : Bool) (index : Nat) (packet : List UInt8) (pts : Nat) : SubBlock :=
  let l := pesLayout packet.length (askedLen fresh)
  { pts := writtenPts fresh packet.length pts
    pad := l.padLen
    aid := 0x20 ||| UInt8.ofNat index
    packet := packet
    fill := blockFill (2024 - (l.ptsLen + l.padLen + packet.length)) }

theorem blockFill_fills {r : Nat} (h : r ≤ 4 ∨ 7 ≤ r) (hr : r < 65536) :
    Fills (blockFill r) ∧ (blockFill r).length = r := by
  rw [blockFill]
  rcases h with hfew | hmany
  · rw [if_neg (by omega)]
    by_cases hpos : 0 < r
    · rw [if_pos (by omega), Int.toNat_natCast]
      exact ⟨.zeros hfew, List.length_replicate⟩
    · have hzero : r = 0 := by omega
      subst hzero
      exact ⟨.zeros (Nat.zero_le 4), rfl⟩
  · rw [if_pos (by omega), Int.toNat_natCast]
    refine ⟨.padding (by omega), ?_⟩
    simp only [List.cons_append, List.nil_append, List.length_cons, List.length_replicate]
    omega

variable {packet : List UInt8} {pts : Nat}

theorem spuBlock_dataLen (hlen : packet.length ≤ 2024) (fresh : Bool) (index pts : Nat) :
    (spuBlock fresh index packet pts).dataLen =
      (pesLayout packet.length (askedLen fresh)).dataLen := by
  have hfits := pesLayout_fits hlen fresh pts
  rw [hfits.dataLen, hfits.ptsLen, SubBlock.dataLen, spuBlock]

theorem take_nowPts (fresh : Bool) (len pts : Nat) :
    (nowPts pts).take (ptsField (writtenPts fresh len pts)).length =
      ptsField (writtenPts fresh len pts) ∧
    (if (ptsField (writtenPts fresh len pts)).length ≠ 0 then 0x80 else 0) =
      ptsFlags (writtenPts fresh len pts) := by
  rw [writtenPts]
  split
  · exact ⟨rfl, rfl⟩
  · exact ⟨rfl, rfl⟩

theorem vobsubBlock_eq {lastPts : List UInt8} {index : Nat} (hne : packet ≠ [])
    (hlen : packet.length ≤ 2024) : vobsubBlock lastPts index packet pts =
      (spuBlock (decide (lastPts ≠ nowPts pts)) index packet pts).bytes := by
  generalize hfresh : decide (lastPts ≠ nowPts pts) = fresh
  have hasked : (if lastPts ≠ nowPts pts then 5 else 0) = askedLen fresh := by
    rw [← hfresh, askedLen]
    simp only [decide_eq_true_eq]
  have hfits := pesLayout_fits hlen fresh pts
  obtain ⟨htake, hflags⟩ := take_nowPts fresh packet.length pts
  rw [vobsubBlock, hasked, SubBlock.bytes, spuBlock_dataLen hlen, spuBlock]
  simp only [hfits.ptsLen, htake, hflags, if_neg hne]
  have hheader : packHeader.length = 14 := rfl
  simp only [List.length_append, List.length_cons, List.length_nil, List.length_replicate, hheader]
  have hremain (f pad : Nat) : (2048 : Int) - ((14 + (0 + 1 + 1 + 1 + 1 + 1 + 1 + 1 + 1 + 1) + f +
      pad + (0 + 1) : Nat) + packet.length) = 2024 - (f + pad + packet.length) := by omega
  rw [hremain]
  simp only [List.append_assoc, List.cons_append, List.nil_append]

theorem spuBlock_valid {index : Nat} (hne : packet ≠ []) (hlen : packet.length ≤ 2024)
    (hpts : pts < 2 ^ 32) (fresh : Bool) : (spuBlock fresh index packet pts).Valid := by
  have hfits := pesLayout_fits hlen fresh pts
  have hdata := (spuBlock_dataLen hlen fresh index pts).trans hfits.dataLen
  have hle := hfits.le
  have hremain := hfits.remain
  have hsmall := hfits.small
  obtain ⟨r, hr⟩ : ∃ r : Nat, r = 2024 - ((pesLayout packet.length (askedLen fresh)).ptsLen +
      (pesLayout packet.length (askedLen fresh)).padLen + packet.length) := ⟨_, rfl⟩
  have hfill : (spuBlock fresh index packet pts).fill = blockFill r := by
    rw [spuBlock, hr, Int.ofNat_sub hle]
    simp only [Int.natCast_add]
    rfl
  have hptsEq : (spuBlock fresh index packet pts).pts = writtenPts fresh packet.length pts := by
    rw [spuBlock]
  have hpadEq : (spuBlock fresh index packet pts).pad =
      (pesLayout packet.length (askedLen fresh)).padLen := by rw [spuBlock]
  obtain ⟨hfills, hlength⟩ := blockFill_fills (r := r) (by omega) (by omega)
  refine ⟨by rwa [spuBlock], by omega, ?_, fun t ht => ?_, by rwa [hfill], ?_⟩
  · rw [hptsEq, hpadEq, ← hfits.ptsLen]
    exact hsmall
  · rw [hptsEq, writtenPts] at ht
    split at ht
    · cases ht
      exact hpts
    · cases ht
  · rw [SubBlock.bytes_length, hdata, hfill, hlength, hr]
    have hheader : packHeader.length = 14 := rfl
    omega

/-! ## The outputs -/

section Outputs

variable {ι : Type}

/-- A packet and a time that a block can hold. -/
structure SpuCall.Fits (c : SpuCall ι) : Prop where
  packet : c.packet ≠ []
  len : c.packet.length ≤ 2024
  pts : c.pts < 2 ^ 32

variable [DecidableEq ι]

/-- Every packet of the output ends below 4 GiB in its file.  `prev` is the time of the call
before, and `start` where the next block of the output starts. -/
def EndsInFile (o : ι) : Option Nat → Nat → List (SpuCall ι) → Prop
  | _, _, [] => True
  | prev, start, c :: calls =>
    if c.out = o then
      let layout := pesLayout c.packet.length (if prev ≠ some c.pts then 5 else 0)
      start + 20 + layout.dataLen < 2 ^ 32 ∧ EndsInFile o (some c.pts) (start + 2048) calls
    else EndsInFile o (some c.pts) start calls

/-- Where a packet of the output with room for a PTS field has the time of the call before, that
is also the time of the last PTS field that was written to the output.  `shown` is that time. -/
def TimesKept (o : ι) : Option Nat → Nat → List (SpuCall ι) → Prop
  | _, _, [] => True
  | prev, shown, c :: calls =>
    if c.out = o then
      (c.packet.length ≤ 2019 → prev = some c.pts → shown = c.pts) ∧
        TimesKept o (some c.pts)
          (if prev ≠ some c.pts ∧ c.packet.length ≤ 2019 then c.pts else shown) calls
    else TimesKept o (some c.pts) shown calls

/-- The packet of a call is read back, and its time if there is room for it. -/
structure SpuCall.ReadAs (index : Nat) (c : SpuCall ι) (r : SpuRead) : Prop where
  aid : r.aid = ((0x20 ||| index : Nat) : Int)
  packet : r.packet = c.packet
  pts : c.packet.length ≤ 2019 → r.pts = c.pts

/-- The file of an output consists of blocks, and its packets are read back, with their times
where there is room for them. -/
structure ReadsBack (index : ι → Nat) (calls : List (SpuCall ι)) (o : ι) : Prop where
  blocks : ∃ blocks : List (List UInt8), vobsubFiles index calls o = blocks.flatten ∧
    ∀ b ∈ blocks, b.length = 2048
  reads : ∃ reads, SubReads (mpegOpen (vobsubFiles index calls o)) reads ∧
    List.Forall₂ (SpuCall.ReadAs (index o)) (calls.filter fun c => c.out = o) reads

/-- The static PTS field after a call with this time. -/
def lastField : Option Nat → List UInt8
  | none => List.replicate 5 0
  | some pts => nowPts pts

theorem nowPts_inj {t t' : Nat} (h : t < 2 ^ 32) (h' : t' < 2 ^ 32) (heq : nowPts t = nowPts t') :
    t = t' := by
  rw [← readPts_nowPts h, ← readPts_nowPts h', heq]

/-- The field is written when the call before had another time. -/
theorem lastField_fresh {prev : Option Nat} {t : Nat} (hprev : ∀ t', prev = some t' → t' < 2 ^ 32)
    (h : t < 2 ^ 32) : decide (lastField prev ≠ nowPts t) = decide (prev ≠ some t) := by
  cases prev with
  | none =>
    have hodd := (firstByte (UInt8.ofNat (t >>> 29))).2.1
    have hne : lastField none ≠ nowPts t := by
      intro heq
      have hheads : some (0 : UInt8) =
          some ((0x21 : UInt8) ||| (UInt8.ofNat (t >>> 29) &&& 0x0e)) :=
        congrArg List.head? heq
      have hzero := Option.some.inj hheads
      rw [← hzero] at hodd
      exact absurd hodd (by decide)
    simp [hne]
  | some t' =>
    by_cases heq : t' = t
    · subst heq
      simp [lastField]
    · have hne : lastField (some t') ≠ nowPts t :=
        fun hsame => heq (nowPts_inj (hprev t' rfl) h hsame)
      simp [hne, heq]

/-- The blocks of an output. -/
def blocksTo (index : ι → Nat) (o : ι) : Option Nat → List (SpuCall ι) → List SubBlock
  | _, [] => []
  | prev, c :: calls =>
    if c.out = o then
      spuBlock (decide (prev ≠ some c.pts)) (index o) c.packet c.pts ::
        blocksTo index o (some c.pts) calls
    else blocksTo index o (some c.pts) calls

/-- What the writer does to the file of an output. -/
theorem fsub_eq (index : ι → Nat) (o : ι) : ∀ (calls : List (SpuCall ι)) (vob : VobsubOut ι)
    (prev : Option Nat), vob.lastPts = lastField prev → (∀ t, prev = some t → t < 2 ^ 32) →
    (∀ c ∈ calls, c.Fits) → (calls.foldl (vobsubOutOutput index) vob).fsub o =
      vob.fsub o ++ (blocksTo index o prev calls).flatMap SubBlock.bytes
  | [], _, _, _, _, _ => (List.append_nil _).symm
  | c :: calls, vob, prev, hlast, hprev, hfits => by
    have hc := hfits c List.mem_cons_self
    have hrest := fsub_eq index o calls (vobsubOutOutput index vob c) (some c.pts) rfl
      (fun t ht => Option.some.inj ht ▸ hc.pts)
      fun c' hc' => hfits c' (List.mem_cons_of_mem c hc')
    rw [List.foldl_cons, hrest, blocksTo]
    split
    next ho =>
      subst ho
      rw [List.flatMap_cons, ← lastField_fresh hprev hc.pts, ← hlast,
        ← vobsubBlock_eq hc.packet hc.len, ← List.append_assoc]
      exact congrArg (· ++ _) (Function.update_self ..)
    next ho =>
      exact congrArg (· ++ _) (Function.update_of_ne (Ne.symm ho) ..)

theorem blocksTo_valid (index : ι → Nat) (o : ι) : ∀ (calls : List (SpuCall ι))
    (prev : Option Nat), (∀ c ∈ calls, c.Fits) → ∀ b ∈ blocksTo index o prev calls, b.Valid
  | [], _, _, _, hb => by cases hb
  | c :: calls, prev, hfits, b, hb => by
    have hc := hfits c List.mem_cons_self
    have hrest := blocksTo_valid index o calls (some c.pts)
      fun c' hc' => hfits c' (List.mem_cons_of_mem c hc')
    rw [blocksTo] at hb
    split at hb
    · rcases List.mem_cons.mp hb with rfl | hb
      · exact spuBlock_valid hc.packet hc.len hc.pts _
      · exact hrest b hb
    · exact hrest b hb

theorem EndsInFile.blocks (index : ι → Nat) (o : ι) : ∀ (calls : List (SpuCall ι))
    {prev : Option Nat} {start : Nat}, (∀ c ∈ calls, c.Fits) → EndsInFile o prev start calls →
    EndsBelow start (blocksTo index o prev calls)
  | [], _, _, _, _ => trivial
  | c :: calls, prev, start, hfits, h => by
    have hc := hfits c List.mem_cons_self
    have hrest := fun c' hc' => hfits c' (List.mem_cons_of_mem c hc')
    rw [EndsInFile] at h
    rw [blocksTo]
    split at h
    next ho =>
      rw [if_pos ho]
      refine ⟨?_, EndsInFile.blocks index o calls hrest h.2⟩
      rw [spuBlock_dataLen hc.len, askedLen]
      simp only [decide_eq_true_eq]
      exact h.1
    next ho =>
      rw [if_neg ho]
      exact EndsInFile.blocks index o calls hrest h

theorem spuAid {index : Nat} (h : index < 32) (fresh : Bool) (packet : List UInt8) (pts : Nat) :
    ((spuBlock fresh index packet pts).aid.toNat : Int) = ((0x20 ||| index : Nat) : Int) := by
  rw [spuBlock, UInt8.toNat_or, UInt8.toNat_ofNat_of_lt' (Nat.lt_trans h (by decide))]
  rfl

variable {o : ι} {calls : List (SpuCall ι)}

/-- The times that are read are the ones written where they are kept. -/
theorem timesKept_iff (index : ι → Nat) (ho : index o < 32) :
    ∀ (calls : List (SpuCall ι)) (prev : Option Nat) (shown : Nat),
    TimesKept o prev shown calls ↔ List.Forall₂ (SpuCall.ReadAs (index o))
      (calls.filter fun c => c.out = o) (readsOf shown (blocksTo index o prev calls))
  | [], _, _ => iff_of_true trivial .nil
  | c :: calls, prev, shown => by
    rw [TimesKept, blocksTo]
    by_cases hout : c.out = o
    · have hpts : (spuBlock (decide (prev ≠ some c.pts)) (index o) c.packet c.pts).pts.getD
          shown = if prev ≠ some c.pts ∧ c.packet.length ≤ 2019 then c.pts else shown := by
        rw [spuBlock, writtenPts]
        simp only [decide_eq_true_eq]
        split
        · rfl
        · rfl
      rw [if_pos hout, if_pos hout, List.filter_cons_of_pos (by simpa using hout), readsOf,
        List.forall₂_cons, timesKept_iff index ho calls, hpts]
      refine and_congr_left fun _ => ⟨fun h => ⟨spuAid ho .., rfl, fun hlen => ?_⟩,
        fun h hlen hsame => ?_⟩
      · dsimp only
        split
        next => rfl
        next hwritten =>
          exact h hlen (Decidable.byContradiction fun hne => hwritten ⟨hne, hlen⟩)
      · have hread := h.pts hlen
        dsimp only at hread
        rwa [if_neg fun hwritten => hwritten.1 hsame] at hread
    · rw [if_neg hout, if_neg hout, List.filter_cons_of_neg (by simpa using hout)]
      exact timesKept_iff index ho calls _ _

/-- What is read from a file does not depend on the run. -/
theorem SubReads.unique {mpeg : Mpeg} {reads reads' : List SpuRead} (h : SubReads mpeg reads)
    (h' : SubReads mpeg reads') : reads = reads' := by
  induction h generalizing reads' with
  | eof h heof =>
    cases h' with
    | eof => rfl
    | skip h2 => cases h.symm.trans h2
    | packet h2 => cases h.symm.trans h2
  | skip h hsize hreads ih =>
    cases h' with
    | eof h2 => cases h.symm.trans h2
    | skip h2 hsize2 hreads2 =>
      cases h.symm.trans h2
      exact ih hreads2
    | packet h2 hsize2 =>
      cases h.symm.trans h2
      omega
  | packet h hsize hreads ih =>
    cases h' with
    | eof h2 => cases h.symm.trans h2
    | skip h2 hsize2 =>
      cases h.symm.trans h2
      omega
    | packet h2 hsize2 hreads2 =>
      cases h.symm.trans h2
      rw [ih hreads2]

/-- What is read from the file of an output. -/
theorem vobsubFiles_reads (index : ι → Nat) (hfits : ∀ c ∈ calls, c.Fits)
    (hends : EndsInFile o none 0 calls) :
    SubReads (mpegOpen (vobsubFiles index calls o)) (readsOf 0 (blocksTo index o none calls)) := by
  have hfile : vobsubFiles index calls o = (blocksTo index o none calls).flatMap SubBlock.bytes :=
    (fsub_eq index o calls (vobsubOutOpen ι) none rfl (fun _ h => by cases h) hfits).trans
      (List.nil_append _)
  exact subReads_blocks (k := 0) _ ⟨rfl, rfl⟩ (Nat.zero_le 4)
    (blocksTo_valid index o calls none hfits) hfile (EndsInFile.blocks index o calls hfits hends)

theorem vobsubFiles_blocks (index : ι → Nat) (hfits : ∀ c ∈ calls, c.Fits) (o : ι) :
    ∃ blocks : List (List UInt8),
      vobsubFiles index calls o = blocks.flatten ∧ ∀ b ∈ blocks, b.length = 2048 := by
  refine ⟨(blocksTo index o none calls).map SubBlock.bytes, ?_, fun bytes hbytes => ?_⟩
  · have hfile := fsub_eq index o calls (vobsubOutOpen ι) none rfl (fun _ h => by cases h) hfits
    rw [vobsubFiles, hfile, List.flatMap_def]
    rfl
  · obtain ⟨b, hb, rfl⟩ := List.mem_map.mp hbytes
    exact (blocksTo_valid index o calls none hfits b hb).length

theorem ReadsBack.timesKept {index : ι → Nat} (h : ReadsBack index calls o) (ho : index o < 32)
    (hfits : ∀ c ∈ calls, c.Fits) (hends : EndsInFile o none 0 calls) :
    TimesKept o none 0 calls := by
  obtain ⟨reads, hreads, hall⟩ := h.reads
  rw [timesKept_iff index ho, (vobsubFiles_reads index hfits hends).unique hreads]
  exact hall

/-- Packets are read back with their times if the times are kept, and only then, as long as the
files do not grow past 4 GiB. -/
theorem vobsub_reads_back_iff (index : ι → Nat) (hindex : ∀ o, index o < 32)
    (calls : List (SpuCall ι)) (hfits : ∀ c ∈ calls, c.Fits) :
    (∀ o, EndsInFile o none 0 calls ∧ TimesKept o none 0 calls → ReadsBack index calls o) ∧
      ∀ o, EndsInFile o none 0 calls → ReadsBack index calls o → TimesKept o none 0 calls := by
  refine ⟨fun o ⟨hends, hkept⟩ => ⟨vobsubFiles_blocks index hfits o, _,
    vobsubFiles_reads index hfits hends, ?_⟩, fun o hends h => ?_⟩
  · exact (timesKept_iff index (hindex o) calls none 0).mp hkept
  · exact h.timesKept (hindex o) hfits hends

end Outputs

/-! ## Two outputs -/

/-- The indices of two outputs. -/
def twoIndices (o : Bool) : Nat := if o then 1 else 0

/-- A packet of one byte. -/
def spuByte (o : Bool) (pts : Nat) : SpuCall Bool := ⟨o, [7], pts⟩

theorem spuByte_fits (h : pts < 2 ^ 32) (o : Bool) : (spuByte o pts).Fits :=
  ⟨List.cons_ne_nil 7 [], (by decide : 1 ≤ 2024), h⟩

/-- Packets of different times, with two of the same time one after the other. -/
def orderedCalls : List (SpuCall Bool) :=
  [spuByte false 90, spuByte false 90, spuByte true 180, spuByte false 270]

theorem orderedCalls_fits : ∀ c ∈ orderedCalls, c.Fits := by
  intro c hc
  simp only [orderedCalls, List.mem_cons, List.not_mem_nil, or_false] at hc
  rcases hc with rfl | rfl | rfl | rfl
  · exact spuByte_fits (by decide) _
  · exact spuByte_fits (by decide) _
  · exact spuByte_fits (by decide) _
  · exact spuByte_fits (by decide) _

theorem twoIndices_lt (o : Bool) : twoIndices o < 32 := by
  cases o with
  | false => decide
  | true => decide

theorem vobsub_reads_back_iff_ordered :
    ReadsBack twoIndices orderedCalls false ∧ ReadsBack twoIndices orderedCalls true := by
  have hback := (vobsub_reads_back_iff twoIndices twoIndices_lt orderedCalls orderedCalls_fits).1
  refine ⟨hback false ⟨?_, ?_⟩, hback true ⟨?_, ?_⟩⟩
  · simp [EndsInFile, orderedCalls, spuByte, pesLayout, packHeader]
  · simp [TimesKept, orderedCalls, spuByte]
  · simp [EndsInFile, orderedCalls, spuByte, pesLayout, packHeader]
  · simp [TimesKept, orderedCalls, spuByte]

/-- The second of two outputs loses the time that the first one was given just before. -/
theorem vobsub_loses_time : ¬ReadsBack twoIndices [spuByte false 90, spuByte true 90] true := by
  intro h
  have hkept := h.timesKept (by decide) (fun c hc => ?_) ?_
  · simp [TimesKept, spuByte] at hkept
  · simp only [List.mem_cons, List.not_mem_nil, or_false] at hc
    rcases hc with rfl | rfl
    · exact spuByte_fits (by decide) _
    · exact spuByte_fits (by decide) _
  · simp [EndsInFile, spuByte, pesLayout, packHeader]

end MPlayer
