import MPlayer.Spu.Assemble

/-!
# Reassembly

A well-formed packet is decoded once, with exactly its bytes, however it is split into fragments, if
the assembler is between two packets when it begins.
-/

namespace MPlayer.Spu

open Lib

/-! ## Bytes -/

variable {p : List UInt8} {i : Nat}

theorem fetch_getD (h : i < p.length) : fetch p (i : Nat) = .ok (p.getD i 0) := by
  rw [fetch_eq (List.getElem?_eq_getElem h), List.getD_eq_getElem?_getD, List.getElem?_eq_getElem h,
    Option.getD_some]

theorem fetch_error (h : p.length ≤ i) : fetch p (i : Nat) = .error .bounds := by
  unfold fetch
  rw [if_pos (Int.natCast_nonneg i), Int.toNat_natCast, List.getElem?_eq_none h]

theorem getBe16_ok (h : i + 1 < p.length) : getBe16 p i = .ok (word p i) := by
  unfold getBe16
  rw [fetch_getD (Nat.lt_of_succ_lt h), fetch_getD h]
  rfl

theorem getBe16_error (h : p.length ≤ i + 1) : getBe16 p i = .error .bounds := by
  unfold getBe16
  by_cases hi : i < p.length
  · rw [fetch_getD hi, fetch_error h]
    rfl
  · rw [fetch_error (Nat.le_of_not_lt hi)]
    rfl

theorem word_take {n : Nat} (h : i + 1 < n) : word (p.take n) i = word p i := by
  simp only [word, List.getD_eq_getElem?_getD, List.getElem?_take_of_lt h,
    List.getElem?_take_of_lt (Nat.lt_of_succ_lt h)]

theorem word_append {q : List UInt8} (h : i + 1 < p.length) : word (p ++ q) i = word p i := by
  simp only [word, List.getD_eq_getElem?_getD, List.getElem?_append_left h,
    List.getElem?_append_left (Nat.lt_of_succ_lt h)]

/-! ## Chains -/

/-- From a control block on, each pointer leads further behind, and the last one leads to itself. -/
inductive ChainTo (p : List UInt8) : Nat → Nat → Prop where
  | self {x : Nat} : x + 4 ≤ p.length → word p (x + 2) = x → ChainTo p x x
  | next {x last : Nat} : x + 4 ≤ p.length → x < word p (x + 2) → ChainTo p (word p (x + 2)) last →
      ChainTo p x last

theorem ChainTo.first {p : List UInt8} {x last : Nat} (h : ChainTo p x last) :
    x + 4 ≤ p.length := by
  cases h with
  | self hx _ => exact hx
  | next hx _ _ => exact hx

theorem ChainTo.mono {q : List UInt8} {x last : Nat} (h : ChainTo p x last)
    (hlen : p.length ≤ q.length) (hword : ∀ i, i + 1 < p.length → word q i = word p i) :
    ChainTo q x last := by
  induction h with
  | self hx hself =>
    exact .self (Nat.le_trans hx hlen) (by rw [hword _ (by omega), hself])
  | next hx hlt hrest ih =>
    rw [← hword _ (by omega)] at hlt ih
    exact .next (Nat.le_trans hx hlen) hlt ih

namespace Assembler

variable {memory : List UInt8} {off size x : Nat} {verdict : Verdict}

theorem walkTurn_eq (size : Nat) (verdict : Verdict) (hx : x + 4 ≤ off)
    (hoff : off ≤ memory.length) :
    walkTurn memory off size (x, verdict) =
      if 4 ≤ x ∧ x = word memory (x + 2) then .ok (.leave (x, .got))
      else if word memory (x + 2) ≤ x ∨ size ≤ word memory (x + 2) then .ok (.leave (x, .broken))
      else .ok (.again (word memory (x + 2), .ended)) := by
  unfold walkTurn
  dsimp only
  rw [if_pos hx, getBe16_ok (by omega), ok_bind]
  rfl

theorem walkTurn_over (hx : ¬x + 4 ≤ off) :
    walkTurn memory off size (x, verdict) = .ok (.leave (x, .ended)) := by
  unfold walkTurn
  dsimp only
  rw [if_neg hx]
  rfl

/-- The walk follows a chain in the packet to its end. -/
theorem walk_got {p : List UInt8} {n last : Nat} (h : ChainTo p x last)
    (hlast : 4 ≤ last) (hlen : p.length = off) (hsize : off ≤ size) (hoff : off ≤ memory.length)
    (hp : memory.take off = p) (hn : off < x + n) :
    loop (walkTurn memory off size) n (x, verdict) = .ok (last, .got) := by
  have hword : ∀ i, i + 1 < off → word memory i = word p i := by
    intro i hi
    rw [← hp, word_take hi]
  induction n generalizing x verdict with
  | zero =>
    have := h.first
    omega
  | succ n ih =>
    have hx : x + 4 ≤ off := hlen ▸ h.first
    have hturn := walkTurn_eq size verdict hx hoff
    rw [hword _ (by omega)] at hturn
    cases h with
    | self _ hself =>
      rw [hself, if_pos ⟨hlast, rfl⟩] at hturn
      exact loop_leave hturn
    | next _ hlt hrest =>
      have hfirst := hrest.first
      rw [if_neg (by omega), if_neg (by omega)] at hturn
      rw [loop_again hturn]
      exact ih hrest (by omega)

/-- The walk finds only chains in the packet. -/
theorem walk_chain {n t : Nat} (h : loop (walkTurn memory off size) n (x, verdict) = .ok (t, .got))
    (hoff : off ≤ memory.length) :
    ∃ last, ChainTo (memory.take off) x last ∧ 4 ≤ last := by
  induction n generalizing x verdict with
  | zero => cases h
  | succ n ih =>
    by_cases hx : x + 4 ≤ off
    · have hturn := walkTurn_eq size verdict hx hoff
      have hword : word (memory.take off) (x + 2) = word memory (x + 2) := word_take (by omega)
      have hlen : x + 4 ≤ (memory.take off).length := by
        rw [List.length_take_of_le hoff]
        exact hx
      split at hturn
      · next hself => exact ⟨x, .self hlen (hword.trans hself.2.symm), hself.1⟩
      · split at hturn
        · rw [loop_leave hturn] at h
          cases h
        · next hnot =>
          rw [loop_again hturn] at h
          obtain ⟨last, hchain, hlast⟩ := ih h
          have hlt : x < word (memory.take off) (x + 2) := by omega
          exact ⟨last, .next hlen hlt (by rw [hword]; exact hchain), hlast⟩
    · rw [loop_leave (walkTurn_over hx)] at h
      cases h

theorem walk_eq_got_iff : walk memory off size = .ok .got ↔
    ∃ t, loop (walkTurn memory off size) (off + 1) (0, .ended) = .ok (t, .got) := by
  unfold walk
  rw [bind_ok_iff]
  constructor
  · rintro ⟨⟨t, verdict⟩, hloop, hverdict⟩
    cases hverdict
    exact ⟨t, hloop⟩
  · rintro ⟨t, hloop⟩
    exact ⟨(t, .got), hloop, rfl⟩

/-! ## Fragments -/

end Assembler

/-- Memory of the size of a packet can be had. -/
def Fragment.Allocates (fragment : Fragment) : Prop :=
  ∀ len2 < 2 ^ 16, (fragment.malloc.get len2).isSome

namespace Assembler

theorem copyIn_ok (memory packet : List UInt8) (off : Nat)
    (h : off + packet.length ≤ memory.length) :
    ∃ copied, copyIn memory off packet = .ok copied ∧ copied.length = memory.length ∧
      copied.take (off + packet.length) = memory.take off ++ packet := by
  have htake : (memory.take off).length = off := List.length_take_of_le (by omega)
  refine ⟨_, if_pos h, ?_, ?_⟩
  · simp only [List.length_append, htake, List.length_drop]
    omega
  · rw [← List.append_assoc]
    exact List.take_left' (by rw [List.length_append, htake])

theorem copyIn_error {memory packet : List UInt8} {off : Nat}
    (h : memory.length < off + packet.length) :
    copyIn memory off packet = .error .bounds := if_neg (Nat.not_le_of_lt h)

/-- The first bytes of a packet are in its memory. -/
structure Holds (spu : Assembler) (p : List UInt8) (k : Nat) : Prop where
  offset : spu.packetOffset = k
  size : spu.packetSize = p.length
  room : p.length ≤ spu.memory.length
  bytes : spu.memory.take k = p.take k

variable {spu : Assembler} {f : Fragment} {p : List UInt8} {k : Nat}

theorem collect_first (h0 : spu.packetOffset = 0) (hf : 2 ≤ f.packet.length)
    (hmalloc : f.Allocates) (hp : f.packet <+: p) (hsize : word p 0 = p.length)
    (hlt : p.length < 2 ^ 16) : ∃ t, spu.collect f = .ok (t, true) ∧ Holds t p f.packet.length := by
  obtain ⟨rest, rfl⟩ := hp
  have hword : getBe16 f.packet 0 = .ok (f.packet ++ rest).length := by
    rw [getBe16_ok hf, ← hsize, word_append hf]
  have hle : f.packet.length ≤ (f.packet ++ rest).length := by
    rw [List.length_append]
    exact Nat.le_add_right _ _
  have hreserve : ∃ memory, (({ spu with packetPts := f.pts100 } : Assembler).reserve
      (f.packet ++ rest).length f.malloc) =
        { spu with packetPts := f.pts100, packet := some memory } ∧
      (f.packet ++ rest).length ≤ memory.length := by
    unfold reserve
    split
    · obtain ⟨memory, hmemory⟩ := Option.isSome_iff_exists.mp (hmalloc _ hlt)
      exact ⟨memory, by rw [hmemory], Nat.le_of_eq (f.malloc.length_eq hmemory).symm⟩
    · next hroom =>
      cases hpacket : spu.packet with
      | none =>
        simp only [packetReserve, memory, hpacket, Option.getD_none, List.length_nil] at hroom
        omega
      | some memory =>
        simp only [packetReserve, Assembler.memory, hpacket, Option.getD_some] at hroom
        exact ⟨memory, by simp only [← hpacket], Nat.le_of_not_lt hroom⟩
  obtain ⟨memory, hmemory, hroom⟩ := hreserve
  obtain ⟨copied, hcopy, hlen, hbytes⟩ := copyIn_ok memory f.packet 0 (by omega)
  rw [Nat.zero_add, List.take_zero, List.nil_append] at hbytes
  refine ⟨{
    packet := some copied
    packetOffset := f.packet.length
    packetSize := (f.packet ++ rest).length
    packetPts := f.pts100 }, ?_, ?_⟩
  · unfold collect
    dsimp only
    rw [if_pos h0, hword, ok_bind]
    simp only [hmemory]
    rw [if_neg (Nat.not_lt_of_le hle), hcopy]
    rfl
  · exact ⟨rfl, rfl, hlen ▸ hroom, by rw [List.take_left]; exact hbytes⟩

theorem Holds.collect_next (h : Holds spu p k) (hk : 0 < k) (hp : f.packet <+: p.drop k)
    (hkp : k ≤ p.length) (hlt : p.length < 2 ^ 16) :
    ∃ t, spu.collect f = .ok (t, true) ∧ Holds t p (k + f.packet.length) := by
  have hlen : k + f.packet.length ≤ p.length := by
    have := hp.length_le
    rw [List.length_drop] at this
    omega
  have hroom := h.room
  obtain ⟨copied, hcopy, hcopied, hbytes⟩ := copyIn_ok spu.memory f.packet k (by omega)
  refine ⟨{ spu with
    packet := some copied
    packetOffset := k + f.packet.length
    packetPts := f.pts100 }, ?_, rfl, h.size, ?_, ?_⟩
  · have hmod : (k + f.packet.length) % 2 ^ 32 = k + f.packet.length := Nat.mod_eq_of_lt (by omega)
    unfold collect
    simp only [h.offset, h.size, hmod]
    rw [if_neg (Nat.ne_of_gt hk), if_neg (Nat.not_lt_of_le hlen)]
    change copyIn spu.memory k f.packet >>= _ = _
    rw [hcopy]
    rfl
  · exact hcopied ▸ hroom
  · change copied.take (k + f.packet.length) = _
    rw [hbytes, h.bytes, List.take_add, (List.prefix_iff_eq_take.mp hp).symm]

/-- The packet isn't complete, and more than its last byte is missing. -/
theorem Holds.finish_early (h : Holds spu p k) (hk : k + 2 ≤ p.length) :
    spu.finish = .ok (spu, none) := by
  unfold finish
  rw [h.offset, h.size, if_neg (by omega)]
  rfl

/-- The packet is complete. -/
theorem Holds.finish_all {last : Nat} (h : Holds spu p p.length) (hchain : ChainTo p 0 last)
    (hlast : 4 ≤ last) : spu.finish = .ok ({ spu with packetOffset := 0 }, some p) := by
  have hbytes := h.bytes
  rw [List.take_length] at hbytes
  have hwalk : walk spu.memory spu.packetOffset spu.packetSize = .ok .got := by
    rw [walk_eq_got_iff, h.offset, h.size]
    exact ⟨last, walk_got hchain hlast rfl (Nat.le_refl _) h.room hbytes (by omega)⟩
  unfold finish
  rw [if_pos (.inl (h.offset.trans h.size.symm)), hwalk, h.size, hbytes]
  rfl

/-! ## Packets -/

theorem assemble_of_collect {t : Assembler} (hf : 2 ≤ f.packet.length)
    (h : spu.collect f = .ok (t, true)) : spu.assemble f = t.finish := by
  unfold assemble
  rw [if_neg (Nat.not_lt_of_le hf), h]
  rfl

/-- The remaining fragments complete the packet. -/
theorem Holds.complete {last : Nat} {fragments : List Fragment} (h : Holds spu p k) (hk : 0 < k)
    (hkp : k ≤ p.length) (hlt : p.length < 2 ^ 16) (hchain : ChainTo p 0 last) (hlast : 4 ≤ last)
    (hlen : ∀ f ∈ fragments, 2 ≤ f.packet.length)
    (hp : p.drop k = fragments.flatMap Fragment.packet) :
    ∃ t, (do
      let (spu, decoded) ← spu.finish
      let (spu, packets) ← spu.feed fragments
      return (spu, decoded.toList ++ packets)) = .ok (t, [p]) ∧ t.packetOffset = 0 := by
  induction fragments generalizing spu k with
  | nil =>
    have hend : k = p.length := Nat.le_antisymm hkp (List.drop_eq_nil_iff.mp hp)
    subst hend
    rw [h.finish_all hchain hlast]
    exact ⟨_, rfl, rfl⟩
  | cons f fragments ih =>
    rw [List.flatMap_cons] at hp
    have hf : 2 ≤ f.packet.length := hlen f List.mem_cons_self
    have hrest := congrArg List.length hp
    rw [List.length_drop, List.length_append] at hrest
    obtain ⟨t, hcollect, ht⟩ := h.collect_next (f := f) hk ⟨_, hp.symm⟩ hkp hlt
    obtain ⟨u, hu, hu0⟩ := ih ht (by omega) (by omega)
      (fun g hg => hlen g (List.mem_cons_of_mem f hg))
      (by rw [← List.drop_drop, hp, List.drop_left])
    refine ⟨u, ?_, hu0⟩
    rw [h.finish_early (by omega), ok_bind]
    simp only [feed, assemble_of_collect hf hcollect]
    rw [hu]
    rfl

end Assembler

/-- A packet says its size, its control pointers lead further behind, and the last one, in the block
at `last`, leads to itself. -/
structure WellFormed (p : List UInt8) (last : Nat) : Prop where
  size : word p 0 = p.length
  length_lt : p.length < 2 ^ 16
  chain : ChainTo p 0 last

namespace Assembler

theorem feed_packet {spu : Assembler} {fragments : List Fragment} {last : Nat}
    (h0 : spu.packetOffset = 0) (hp : WellFormed (fragments.flatMap Fragment.packet) last)
    (hlast : 4 ≤ last) (hlen : ∀ f ∈ fragments, 2 ≤ f.packet.length ∧ f.Allocates) :
    ∃ t, spu.feed fragments = .ok (t, [fragments.flatMap Fragment.packet]) ∧
      t.packetOffset = 0 := by
  cases fragments with
  | nil => exact absurd hp.chain.first (by decide)
  | cons f fragments =>
    obtain ⟨hf, hmalloc⟩ := hlen f List.mem_cons_self
    have hpre : f.packet <+: (f :: fragments).flatMap Fragment.packet :=
      ⟨_, List.flatMap_cons.symm⟩
    obtain ⟨t, hcollect, ht⟩ := collect_first h0 hf hmalloc hpre hp.size hp.length_lt
    have hrest : ((f :: fragments).flatMap Fragment.packet).drop f.packet.length =
        fragments.flatMap Fragment.packet := by
      rw [List.flatMap_cons, List.drop_left]
    obtain ⟨u, hu, hu0⟩ := ht.complete (by omega) hpre.length_le hp.length_lt hp.chain hlast
      (fun g hg => (hlen g (List.mem_cons_of_mem f hg)).1) hrest
    refine ⟨u, ?_, hu0⟩
    simp only [feed, assemble_of_collect hf hcollect]
    exact hu

theorem feed_append {spu t u : Assembler} {as bs : List Fragment} {ps qs : List (List UInt8)}
    (has : spu.feed as = .ok (t, ps)) (hbs : t.feed bs = .ok (u, qs)) :
    spu.feed (as ++ bs) = .ok (u, ps ++ qs) := by
  induction as generalizing spu ps with
  | nil =>
    cases has
    exact hbs
  | cons f as ih =>
    rw [feed, bind_ok_iff] at has
    obtain ⟨⟨s, decoded⟩, hs, has⟩ := has
    obtain ⟨⟨s', packets⟩, hs', has⟩ := bind_ok_iff.mp has
    cases has
    rw [List.cons_append, feed, hs, ok_bind]
    simp only
    rw [ih hs', ok_bind, List.append_assoc]
    rfl

/-- Packets are decoded each once, in order, and with exactly their bytes, whatever the assembler
has seen before. -/
theorem packets_reassembled (spu : Assembler) (h0 : spu.packetOffset = 0)
    (splits : List (List Fragment))
    (hsplits : ∀ split ∈ splits, ∃ last, 4 ≤ last ∧ WellFormed (split.flatMap Fragment.packet) last)
    (hlen : ∀ split ∈ splits, ∀ f ∈ split, 2 ≤ f.packet.length ∧ f.Allocates) (n : Nat) :
    ∃ t, spu.feed (splits.take n).flatten =
        .ok (t, (splits.take n).map (·.flatMap Fragment.packet)) ∧ t.packetOffset = 0 := by
  induction splits generalizing spu n with
  | nil => exact ⟨spu, by rw [List.take_nil]; rfl, h0⟩
  | cons split splits ih =>
    cases n with
    | zero => exact ⟨spu, rfl, h0⟩
    | succ n =>
      obtain ⟨last, hlast, hp⟩ := hsplits split List.mem_cons_self
      obtain ⟨t, ht, ht0⟩ := feed_packet h0 hp hlast (hlen split List.mem_cons_self)
      obtain ⟨u, hu, hu0⟩ := ih t ht0 (fun s hs => hsplits s (List.mem_cons_of_mem split hs))
        (fun s hs => hlen s (List.mem_cons_of_mem split hs)) n
      rw [List.take_succ_cons, List.flatten_cons, List.map_cons]
      exact ⟨u, feed_append ht hu, hu0⟩

/-- Memory filled with zeros. -/
def zeroMalloc : Malloc where
  get := fun n => some (List.replicate n 0)
  length_eq := by
    rintro n memory ⟨⟩
    exact List.length_replicate

/-- Two packets of eight bytes, the second one in two fragments. -/
def twoPackets : List (List Fragment) :=
  [[⟨[0, 8, 0, 4, 0, 0, 0, 4], 0, zeroMalloc, by decide⟩],
    [⟨[0, 8, 0, 4], 0, zeroMalloc, by decide⟩, ⟨[0, 0, 0, 4], 0, zeroMalloc, by decide⟩]]

theorem packets_reassembled_two :
    ∃ t, init.feed (twoPackets.take 2).flatten =
        .ok (t, (twoPackets.take 2).map (·.flatMap Fragment.packet)) ∧ t.packetOffset = 0 := by
  have hwell : WellFormed [0, 8, 0, 4, 0, 0, 0, 4] 4 :=
    ⟨rfl, by decide, .next (by decide) (by decide) (.self (by decide) rfl)⟩
  refine packets_reassembled init rfl twoPackets ?_ ?_ 2
  · intro split hsplit
    refine ⟨4, Nat.le_refl 4, ?_⟩
    simp only [twoPackets, List.mem_cons, List.not_mem_nil, or_false] at hsplit
    obtain rfl | rfl := hsplit
    · exact hwell
    · exact hwell
  · intro split hsplit f hf
    have hmalloc : f.malloc = zeroMalloc ∧ 2 ≤ f.packet.length := by
      simp only [twoPackets, List.mem_cons, List.not_mem_nil, or_false] at hsplit
      obtain rfl | rfl := hsplit
      · simp only [List.mem_cons, List.not_mem_nil, or_false] at hf
        subst hf
        exact ⟨rfl, by decide⟩
      · simp only [List.mem_cons, List.not_mem_nil, or_false] at hf
        obtain rfl | rfl := hf
        · exact ⟨rfl, by decide⟩
        · exact ⟨rfl, by decide⟩
    refine ⟨hmalloc.2, fun len2 _ => ?_⟩
    rw [hmalloc.1]
    rfl

/-- A packet whose only control block overlaps the header. -/
def overlapping : Fragment := ⟨[0, 6, 0, 2, 0, 2], 0, zeroMalloc, by decide⟩

/-- A pointer to itself within the header doesn't end the chain. -/
theorem overlapping_not_reassembled : WellFormed overlapping.packet 2 ∧
    ¬∃ t, init.feed [overlapping] = .ok (t, [overlapping.packet]) := by
  refine ⟨⟨rfl, by decide, .next (by decide) (by decide) (.self (by decide) rfl)⟩, ?_⟩
  rintro ⟨t, ht⟩
  have hnone : (init.feed [overlapping]).toOption.map Prod.snd = some [] := by decide
  rw [ht] at hnone
  cases hnone

end Assembler

end MPlayer.Spu
