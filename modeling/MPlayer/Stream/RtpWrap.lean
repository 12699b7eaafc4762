import MPlayer.Stream.RtpReads
import MPlayer.Lib.Fin

/-!
# Overtaking at the end of a turn

Sequence numbers are compared as plain integers.  So a packet that overtakes one of an
earlier turn looks old: `rtp_cache` drops it, or starts anew with it.  Both spoil the
sequence, and the packets come in sequence exactly if no packet does so.

Nothing given out is made up: what all data in the cache and in the datagrams has in
common, all that is given out has, too (`RtpOnly`).
-/

namespace MPlayer

open Lib

/-! ## Where the data comes from -/

variable {Q : List UInt8 → Prop} {b b' : RtpBuffer} {socket socket' : List (List UInt8)}
  {out : List UInt8} {length : Nat}

/-- Everything in the cache is as `Q` says. -/
structure RtpOnly (Q : List UInt8 → Prop) (b : RtpBuffer) : Prop where
  first_lt : b.first < maxRtpPacketsIn
  slots : ∀ i < maxRtpPacketsIn, b.len i ≠ 0 → Q ((b.data i).take (b.len i))

/-- The data of every datagram is as `Q` says. -/
def RtpSocketOnly (Q : List UInt8 → Prop) (socket : List (List UInt8)) : Prop :=
  ∀ datagram ∈ socket, Q (getrtp2 datagram).data

theorem getrtp2_length {datagram : List UInt8} (h : 0 ≤ (getrtp2 datagram).lengthData) :
    ((getrtp2 datagram).data.length : Int) = (getrtp2 datagram).lengthData := by
  rw [getrtp2] at h ⊢
  split
  · rfl
  · rename_i hlong
    simp only [if_neg hlong] at h
    simp only [List.length_drop]
    omega

theorem maxRtpPacketsIn_pos : 0 < maxRtpPacketsIn := by decide

theorem rtpFeed_only {f : RtpFrame} (hb : RtpOnly Q b) (hf : Q f.data)
    (hfeed : rtpFeed f b = some (out, b')) : (out = [] ∨ Q out) ∧ RtpOnly Q b' := by
  rw [rtpFeed] at hfeed
  split at hfeed
  · cases hfeed
  · cases hfeed
    exact ⟨Or.inr hf, hb⟩

theorem rtpCacheReset_only (seq : Nat) : RtpOnly Q (rtpCacheReset seq b) := by
  refine ⟨maxRtpPacketsIn_pos, fun i hi hlen => ?_⟩
  simp only [rtpCacheReset, if_pos hi] at hlen
  exact absurd rfl hlen

/-- A packet put into slot `slot`. -/
def rtpStore (f : RtpFrame) (slot : Nat) (b : RtpBuffer) : RtpBuffer :=
  { b with
    data := Function.update b.data slot f.data
    len := Function.update b.len slot f.lengthData.toNat
    seq := Function.update b.seq slot f.sequence }

/-- What `rtp_cache` may do: nothing, give the packet out and go on behind it or start
anew, or put it into a slot. -/
theorem rtpCache_cases {datagram : List UInt8} (h : rtpCache datagram b = some (out, b')) :
    (out = [] ∧ b' = b) ∨
    (∃ first seq, rtpFeed (getrtp2 datagram) { b with
      isFirst := false, first := first % maxRtpPacketsIn, seq := seq } = some (out, b')) ∨
    rtpFeed (getrtp2 datagram) (rtpCacheReset (getrtp2 datagram).sequence b) = some (out, b') ∨
    (∃ slot, out = [] ∧ 0 ≤ (getrtp2 datagram).lengthData ∧
      b' = rtpStore (getrtp2 datagram) (slot % maxRtpPacketsIn) b) := by
  simp only [rtpCache] at h
  split at h
  · cases h
    exact Or.inl ⟨rfl, rfl⟩
  split at h
  · exact Or.inr (Or.inl ⟨_, _, h⟩)
  split at h
  · exact Or.inr (Or.inr (Or.inl h))
  split at h
  · split at h
    · cases h
      exact Or.inl ⟨rfl, rfl⟩
    split at h
    · cases h
      exact Or.inl ⟨rfl, rfl⟩
    · exact Or.inr (Or.inr (Or.inl h))
  split at h
  · cases h
  · rename_i hnonneg
    cases h
    exact Or.inr (Or.inr (Or.inr ⟨_, rfl, Int.not_lt.mp hnonneg, rfl⟩))

theorem RtpOnly.store {f : RtpFrame} (hb : RtpOnly Q b) (hf : Q f.data)
    (hlength : (f.data.length : Int) = f.lengthData) (slot : Nat) :
    RtpOnly Q (rtpStore f slot b) := by
  refine ⟨hb.first_lt, fun i hi hlen => ?_⟩
  simp only [rtpStore] at hlen ⊢
  by_cases hslot : i = slot
  · rw [hslot, Function.update_self, Function.update_self, List.take_of_length_le (by omega)]
    exact hf
  · rw [Function.update_of_ne hslot] at hlen ⊢
    rw [Function.update_of_ne hslot]
    exact hb.slots i hi hlen

theorem RtpOnly.cache {datagram : List UInt8} (hb : RtpOnly Q b) (hd : Q (getrtp2 datagram).data)
    (hcache : rtpCache datagram b = some (out, b')) : (out = [] ∨ Q out) ∧ RtpOnly Q b' := by
  rcases rtpCache_cases hcache with ⟨rfl, rfl⟩ | ⟨first, seq, hfeed⟩ | hfeed | ⟨slot, rfl, h0, rfl⟩
  · exact ⟨Or.inl rfl, hb⟩
  · have hb' : RtpOnly Q { b with
        isFirst := false, first := first % maxRtpPacketsIn, seq := seq } :=
      ⟨Nat.mod_lt _ maxRtpPacketsIn_pos, hb.slots⟩
    exact rtpFeed_only hb' hd hfeed
  · exact rtpFeed_only (rtpCacheReset_only _) hd hfeed
  · exact ⟨Or.inl rfl, hb.store hd (getrtp2_length h0) _⟩

theorem rtpSkipLost_lt (b : RtpBuffer) : ∀ (n i : Nat), i < maxRtpPacketsIn →
    rtpSkipLost b n i < maxRtpPacketsIn
  | 0, _, hi => hi
  | n + 1, i, hi => by
    simp only [rtpSkipLost]
    split
    · split
      · exact Nat.mod_lt _ maxRtpPacketsIn_pos
      · exact rtpSkipLost_lt b n _ (Nat.mod_lt _ maxRtpPacketsIn_pos)
    · exact hi

theorem RtpOnly.getCached (hb : RtpOnly Q b) :
    ((rtpGetCached b).1 = [] ∨ Q (rtpGetCached b).1) ∧ RtpOnly Q (rtpGetCached b).2 := by
  have hi := rtpSkipLost_lt b maxRtpPacketsIn b.first hb.first_lt
  refine ⟨?_, Nat.mod_lt _ maxRtpPacketsIn_pos, fun j hj hlen => ?_⟩
  · by_cases hlen : b.len (rtpSkipLost b maxRtpPacketsIn b.first) = 0
    · exact Or.inl (by rw [rtpGetCached, hlen, List.take_zero])
    · exact Or.inr (hb.slots _ hi hlen)
  · simp only [rtpGetCached] at hlen ⊢
    by_cases hslot : j = rtpSkipLost b maxRtpPacketsIn b.first
    · rw [hslot, Function.update_self] at hlen
      exact absurd rfl hlen
    · rw [Function.update_of_ne hslot] at hlen ⊢
      exact hb.slots j hj hlen

theorem RtpOnly.fill : ∀ (r : Nat) {socket : List (List UInt8)} {b : RtpBuffer}, RtpOnly Q b →
    RtpSocketOnly Q socket → rtpFill r socket b = some (out, b', socket') →
    (out = [] ∨ Q out) ∧ RtpOnly Q b' ∧ RtpSocketOnly Q socket' := by
  intro r
  induction r with
  | zero =>
    intro socket b hb hs hfill
    cases hfill
    exact ⟨hb.getCached.1, hb.getCached.2, hs⟩
  | succ r ih =>
    intro socket b hb hs hfill
    by_cases hlen : b.len b.first = 0
    · cases socket with
      | nil =>
        rw [rtpFill, if_neg (not_not.mpr hlen)] at hfill
        cases hfill
      | cons datagram socket =>
        rw [rtpFill_arrival hlen] at hfill
        obtain ⟨⟨out₁, b₁⟩, hcache, hnext⟩ := Option.bind_eq_some_iff.mp hfill
        obtain ⟨hout, hb₁⟩ := hb.cache (hs datagram List.mem_cons_self) hcache
        have hs₁ : RtpSocketOnly Q socket := fun d hd => hs d (List.mem_cons_of_mem _ hd)
        simp only at hnext
        split at hnext
        · cases hnext
          exact ⟨hout, hb₁, hs₁⟩
        · exact ih hb₁ hs₁ hnext
    · rw [rtpFill_cached hlen] at hfill
      cases hfill
      exact ⟨hb.getCached.1, hb.getCached.2, hs⟩

theorem RtpOnly.readLoop : ∀ (fuel : Nat) {socket : List (List UInt8)} {b : RtpBuffer},
    RtpOnly Q b → RtpSocketOnly Q socket → rtpReadLoop fuel socket b = some (out, b', socket') →
    Q out ∧ RtpOnly Q b' ∧ RtpSocketOnly Q socket' := by
  intro fuel
  induction fuel with
  | zero => exact fun _ _ hread => by cases hread
  | succ fuel ih =>
    intro socket b hb hs hread
    rw [rtpReadLoop] at hread
    obtain ⟨⟨out₁, b₁, socket₁⟩, hfill, hnext⟩ := Option.bind_eq_some_iff.mp hread
    obtain ⟨hout, hb₁, hs₁⟩ := hb.fill _ hs hfill
    simp only at hnext
    split at hnext
    · exact ih hb₁ hs₁ hnext
    · rename_i hne
      cases hnext
      exact ⟨hout.resolve_left hne, hb₁, hs₁⟩

theorem RtpOnly.reads {fuel : Nat} (hlength : streamBufferSize ≤ length) :
    ∀ (c : Nat) {socket : List (List UInt8)} {b : RtpBuffer} {outs : List (List UInt8)},
      RtpOnly Q b → RtpSocketOnly Q socket →
      rtpReads fuel length c socket b = some (outs, b', socket') → ∀ out ∈ outs, Q out := by
  intro c
  induction c with
  | zero =>
    intro socket b outs hb hs hreads out hout
    cases hreads
    cases hout
  | succ c ih =>
    intro socket b outs hb hs hreads out hout
    rw [rtpReads, readRtpFromServer, if_neg (Nat.not_lt.mpr hlength)] at hreads
    obtain ⟨⟨out₁, b₁, socket₁⟩, hread, hnext⟩ := Option.bind_eq_some_iff.mp hreads
    obtain ⟨⟨outs₁, rest⟩, hreads₁, heq⟩ := Option.map_eq_some_iff.mp hnext
    obtain ⟨hq, hb₁, hs₁⟩ := hb.readLoop fuel hs hread
    cases heq
    rcases List.mem_cons.mp hout with rfl | hout
    · exact hq
    · exact ih hb₁ hs₁ hreads₁ out hout

theorem rtpbufStart_only : RtpOnly Q rtpbufStart :=
  ⟨maxRtpPacketsIn_pos, fun _ _ hlen => absurd rfl hlen⟩

/-! ## A packet of the next turn -/

variable {S : RtpStream} {P : Nat → List UInt8} {order A : List Nat} {e n N : Nat}

/-- A packet of a later turn arrives early: it is dropped, or given out. -/
theorem RtpReady.arrive_wrapped (h : RtpReady S P b e A) (hP : S.Payload P) (he : e < n)
    (hn : n < e + 16) (hfits : S.Fits n) (hturn : S.turn e ≠ S.turn n) :
    rtpCache (S.datagram P n) b = some ([], b) ∨
      ∃ b', rtpCache (S.datagram P n) b = some (P n, b') := by
  have hlength : ((P n).length : Int) ≠ 0 := by
    intro hz
    exact hP.ne_nil n (List.eq_nil_of_length_eq_zero (Int.ofNat.inj hz))
  have hnew : (S.seq n : Int) - S.seq e ≤ -65521 := by
    rw [RtpStream.turn, RtpStream.turn] at hturn
    rw [RtpStream.seq, RtpStream.seq]
    omega
  have h0 : ¬ ((S.seq n : Int) - S.seq e = 0 ∨ False) := by
    rw [or_false]
    omega
  have h1 : ¬ (S.seq n : Int) - S.seq e > (maxRtpPacketsIn : Nat) := by
    rw [maxRtpPacketsIn]
    omega
  have h2 : (S.seq n : Int) - S.seq e < 0 := by omega
  have h3 : ¬ (S.seq n : Int) - S.seq e > -(3 * (maxRtpPacketsIn : Nat)) := by
    rw [maxRtpPacketsIn]
    omega
  have h4 : ¬ ((P n).length : Int) < 0 := by omega
  rw [rtpCache, RtpStream.getrtp2_fits hP hfits]
  simp only [h.first, h.next, h.started, if_neg hlength, Bool.false_eq_true, if_neg h0, if_neg h1,
    if_pos h2, if_neg h3, rtpFeed, if_neg h4]
  split
  · exact Or.inl rfl
  · exact Or.inr ⟨_, rfl⟩

/-- Payloads of the byte `d`, but for those of packet `n`, which are of `c`. -/
def filledPayload (S : RtpStream) (c d : UInt8) (n k : Nat) : List UInt8 :=
  List.replicate (S.len k) (if k = n then c else d)

theorem filledPayload_payload (S : RtpStream) (c d : UInt8) (n : Nat) :
    S.Payload (filledPayload S c d n) :=
  fun _ => List.length_replicate

/-- Payloads of zeros, but for those of packet `n`, which are ones. -/
def markedPayload (S : RtpStream) (n k : Nat) : List UInt8 := filledPayload S 1 0 n k

/-- Nothing but zeros. -/
def AllZero (bytes : List UInt8) : Prop := ∀ x ∈ bytes, x = 0

theorem markedPayload_payload (S : RtpStream) (n : Nat) : S.Payload (markedPayload S n) :=
  filledPayload_payload S 1 0 n

theorem markedPayload_zero {k : Nat} (h : k ≠ n) : AllZero (markedPayload S n k) := by
  intro x hx
  rw [markedPayload, filledPayload, if_neg h] at hx
  exact List.eq_of_mem_replicate hx

theorem markedPayload_marked : ¬ AllZero (markedPayload S n n) := by
  intro h
  have hmem : (1 : UInt8) ∈ markedPayload S n n := by
    rw [markedPayload, filledPayload, if_pos rfl]
    exact List.mem_replicate.mpr ⟨Nat.ne_of_gt (S.len_pos n), rfl⟩
  exact absurd (h 1 hmem) (by decide)

/-- Before packet `n` arrives, the cache holds zeros. -/
theorem RtpReady.only_zero (h : RtpReady S (markedPayload S n) b e A) (hn : n ∉ A) :
    RtpOnly AllZero b := by
  refine ⟨?_, fun i hi hlen => ?_⟩
  · rw [h.first]
    exact Nat.mod_lt _ maxRtpPacketsIn_pos
  · -- the packet of this slot among the next 32
    obtain ⟨k, hk, hlt, rfl⟩ : ∃ k, e ≤ k ∧ k < e + maxRtpPacketsIn ∧ k % maxRtpPacketsIn = i := by
      refine ⟨e + (i + maxRtpPacketsIn - e % maxRtpPacketsIn) % maxRtpPacketsIn, ?_, ?_, ?_⟩
      all_goals rw [maxRtpPacketsIn] at *
      all_goals omega
    have hmem : k ∈ A := by
      by_contra hnot
      exact hlen (h.empty k hk hlt hnot)
    obtain ⟨hdata, hlen', -⟩ := h.cached k hk hmem
    rw [hdata, hlen', List.take_length]
    exact markedPayload_zero fun hkn => hn (hkn ▸ hmem)

theorem RtpStream.Fits.only {Q : List UInt8 → Prop} (hP : S.Payload P)
    (hfits : ∀ k ∈ order, S.Fits k) {i : Nat} (hQ : ∀ k ∈ order.drop i, Q (P k)) :
    RtpSocketOnly Q (S.socket P order i) := by
  intro datagram hd
  obtain ⟨k, hk, rfl⟩ := List.mem_map.mp hd
  rw [RtpStream.getrtp2_fits hP (hfits k (List.mem_of_mem_drop hk))]
  exact hQ k hk

theorem RtpDelivery.notMem_drop (hd : RtpDelivery order) {i : Nat} (hn : order[i]? = some n) :
    n ∉ order.drop (i + 1) := by
  obtain ⟨hi, hget⟩ := List.getElem?_eq_some_iff.mp hn
  have hnodup := hd.once.sublist (List.drop_sublist i order)
  rw [List.drop_eq_getElem_cons hi, hget, List.nodup_cons] at hnodup
  exact hnodup.1

/-- Reads that reach a packet which overtakes one of an earlier turn do not give the
payloads in sequence. -/
theorem RtpReady.reads_wrapped (hd : RtpDelivery order) (hfits : ∀ k ∈ order, S.Fits k)
    {limit m fuel : Nat} (hkeeps : S.KeepsTurns order limit) (hn : order[limit]? = some n)
    (hmn : m < n) (hm : m ∉ order.take limit) (hturn : S.turn m ≠ S.turn n) (hN : n < N)
    (hall : ∀ k < N, k ∈ order) (hlength : streamBufferSize ≤ length) :
    ∀ (c : Nat) {i e : Nat} {b b' : RtpBuffer} {socket : List (List UInt8)},
      RtpReady S (markedPayload S n) b e (order.take i) → i ≤ limit → e + c = N → e ≤ i →
      rtpReads fuel length c (S.socket (markedPayload S n) order i) b ≠
        some ((List.range' e c).map (markedPayload S n), b', socket) := by
  have hP := markedPayload_payload S n
  have hlimit : limit ≤ order.length := Nat.le_of_lt (List.getElem?_eq_some_iff.mp hn).1
  intro c
  induction c with
  | zero =>
    intro i e b b' socket h hi he hei hreads
    have hmem := h.done n (by omega)
    exact hd.notMem_take hn ((List.take_sublist_take_left hi).subset hmem)
  | succ c ih =>
    intro i e b b' socket h hi he hei hreads
    rw [rtpReads, readRtpFromServer, if_neg (Nat.not_lt.mpr hlength), List.range'_succ,
      List.map_cons] at hreads
    obtain ⟨⟨out₁, b₁, socket₁⟩, hread, hnext⟩ := Option.bind_eq_some_iff.mp hreads
    obtain ⟨⟨outs₁, rest⟩, hreads₁, heq⟩ := Option.map_eq_some_iff.mp hnext
    cases heq
    obtain ⟨fuel, rfl⟩ : ∃ f, fuel = f + 1 := by
      cases fuel with
      | zero => cases hread
      | succ f => exact ⟨f, rfl⟩
    rcases h.fill hd hP hfits hkeeps hlimit (maxRtpPacketsIn - 3) hi (hall e (by omega))
      (by rw [maxRtpPacketsIn]; omega) with
      ⟨b₂, j, hfill, hready, hj⟩ | ⟨b₂, r, hfill, hready, hmem, -⟩
    · rw [rtpReadLoop, rtpGetNext, hfill] at hread
      simp only [Option.bind_some, if_neg (hP.ne_nil e)] at hread
      cases hread
      exact ih hready hj (by omega) (hready.le_length hj hlimit) hreads₁
    · have hem : e ≤ m := Nat.le_of_not_lt fun hlt => hm (hready.done m hlt)
      have hen : e < n := Nat.lt_of_le_of_lt hem hmn
      have hturn' : S.turn e ≠ S.turn n := by
        rw [RtpStream.turn, RtpStream.turn] at *
        omega
      have hne : n ∉ order.take limit := hd.notMem_take hn
      have hzero : ∀ k ∈ order.drop (limit + 1), AllZero (markedPayload S n k) :=
        fun k hk => markedPayload_zero fun hkn => hd.notMem_drop hn (hkn ▸ hk)
      rw [socket_arrival hn, rtpFill_arrival ((hready.len_first hP).mpr hmem)] at hfill
      rcases hready.arrive_wrapped hP hen (hready.arrival hd hmem hn).2
        (hfits n (List.mem_of_getElem? hn)) hturn' with hcache | ⟨b₃, hcache⟩
      · rw [hcache] at hfill
        simp only [Option.bind_some, ne_eq, not_true_eq_false, if_false] at hfill
        rw [rtpReadLoop, rtpGetNext, hfill] at hread
        obtain ⟨⟨out₂, b₄, socket₂⟩, hfill', hloop⟩ := Option.bind_eq_some_iff.mp hread
        obtain ⟨-, hb₄, hs₂⟩ := (hready.only_zero hne).fill r
          (RtpStream.Fits.only hP hfits hzero) hfill'
        have hrest : RtpOnly AllZero b₁ ∧ RtpSocketOnly AllZero socket₁ := by
          simp only at hloop
          split at hloop
          · exact (hb₄.readLoop fuel hs₂ hloop).2
          · cases hloop
            exact ⟨hb₄, hs₂⟩
        have hall_zero := hrest.1.reads hlength c hrest.2 hreads₁
        refine markedPayload_marked (hall_zero (markedPayload S n n) (List.mem_map_of_mem ?_))
        rw [List.mem_range'_1]
        omega
      · rw [hcache] at hfill
        simp only [Option.bind_some, ne_eq, hP.ne_nil n, not_false_eq_true, if_true] at hfill
        rw [rtpReadLoop, rtpGetNext, hfill] at hread
        simp only [Option.bind_some, if_neg (hP.ne_nil n)] at hread
        have hout : markedPayload S n n = markedPayload S n e :=
          congrArg Prod.fst (Option.some.inj hread)
        refine markedPayload_marked (S := S) (n := n) ?_
        rw [hout]
        exact markedPayload_zero (Nat.ne_of_lt hen)

/-! ## The sequence -/

/-- Whatever the payloads, `N` reads return those of the first `N` packets in
sequence. -/
def RtpStream.InSequence (S : RtpStream) (order : List Nat) (N length : Nat) : Prop :=
  ∀ P, S.Payload P → ∃ b socket,
    Returns (fun fuel => rtpReads fuel length N (order.map (S.datagram P)) rtpbufStart)
      ((List.range N).map P, b, socket)

/-- All packets fit, and none overtakes one of an earlier turn. -/
def RtpStream.Tame (S : RtpStream) (order : List Nat) : Prop :=
  (∀ n ∈ order, S.Fits n) ∧ S.KeepsTurns order order.length

theorem RtpStream.Tame.inSequence (h : S.Tame order) (hd : RtpDelivery order)
    (hall : ∀ k < N, k ∈ order) (hlength : streamBufferSize ≤ length) :
    S.InSequence order N length := by
  intro P hP
  obtain ⟨hfits, hkeeps⟩ := h
  cases N with
  | zero => exact ⟨rtpbufStart, order.map (S.datagram P), .of_forall 0 fun _ _ => rfl⟩
  | succ N =>
    obtain ⟨b, hfirst, hready⟩ := rtp_first hd hP (hfits 0 (hall 0 (Nat.succ_pos N)))
    have hpos : 1 ≤ order.length := List.length_pos_of_mem (hall 0 (Nat.succ_pos N))
    obtain ⟨b', socket, hreads⟩ := hready.reads hd hP hfits hkeeps hlength N hpos
      (fun k _ hk => hall k (by omega)) (Nat.le_refl 1)
    refine ⟨b', socket, .of_forall 1 fun m hm => ?_⟩
    obtain ⟨fuel, rfl⟩ := Nat.exists_eq_add_of_le' hm
    have hread := readRtp_of_fill hlength (hP.ne_nil 0) hfirst fuel
    rw [RtpStream.socket, List.drop_zero] at hread
    rw [rtpReads, hread]
    simp only [Option.bind_some, hreads fuel, Option.map_some, List.range_eq_range',
      List.range'_succ, List.map_cons]

/-- What `getrtp2` takes for the payload of packet `n`. -/
def RtpStream.taken (S : RtpStream) (P : Nat → List UInt8) (n : Nat) : List UInt8 :=
  ((S.header n).extension ++ (P n ++ (S.header n).padding)).take (S.header n).room

theorem RtpStream.getrtp2_data (S : RtpStream) (P : Nat → List UInt8) (n : Nat) :
    (getrtp2 (S.datagram P n)).data = S.taken P n := by
  rw [datagram, getrtp2_bytes _ (S.seq_lt n)]
  rfl

/-- A part of an extension that `getrtp2` fills its buffer with is not of one byte, 0 or 1. -/
theorem RtpHeader.extension_ne (h : RtpHeader) (hroom : h.room ≤ h.extension.length) {c : UInt8}
    (hc : c = 0 ∨ c = 1) : ∃ x ∈ h.extension.take h.room, x ≠ c := by
  by_contra hall
  push Not at hall
  have hpos := h.room_pos
  have hbyte : ∀ i < h.room, h.extension.getD i 0 = c := by
    intro i hi
    have hlt : i < h.extension.length := Nat.lt_of_lt_of_le hi hroom
    rw [List.getD_eq_getElem?_getD, List.getElem?_eq_getElem hlt, Option.getD_some]
    exact hall _ (List.mem_take_iff_getElem.mpr ⟨i, by omega, rfl⟩)
  -- the extension counts its words in bytes 2 and 3
  rcases h.extension_length with hnil | hlen
  · rw [hnil, List.length_nil] at hroom
    omega
  · rw [hbyte 2 (by omega), hbyte 3 (by omega)] at hlen
    rcases hc with rfl | rfl
    · rw [hlen, show (0 : UInt8).toNat = 0 from rfl] at hroom
      omega
    · rw [hlen, show (1 : UInt8).toNat = 1 from rfl] at hroom
      omega

/-- Where only the payload of packet `n` has the byte `c` alone, only packet `n` gives it, and it
fits. -/
theorem RtpStream.fits_of_taken {c d : UInt8} {k : Nat} (hc : c = 0 ∨ c = 1) (hcd : c ≠ d)
    (hhead : (S.header n).extension.head? ≠ some c)
    (htaken : filledPayload S c d n n = S.taken (filledPayload S c d n) k) : S.Fits n := by
  have hfill : ∀ x ∈ S.taken (filledPayload S c d n) k, x = c := by
    intro x hx
    rw [← htaken, filledPayload, if_pos rfl] at hx
    exact List.eq_of_mem_replicate hx
  have hroom := (S.header k).room_pos
  by_cases hkn : k = n
  · subst hkn
    have hnil : (S.header k).extension = [] := by
      cases hext : (S.header k).extension with
      | nil => rfl
      | cons x ext =>
        rw [hext] at hhead
        refine absurd (congrArg some (hfill x ?_)) hhead
        rw [taken, hext, List.cons_append, List.take_cons (by omega)]
        exact List.mem_cons_self
    have hlen := congrArg List.length htaken
    rw [taken, hnil, List.nil_append, List.length_take, List.length_append,
      filledPayload_payload S c d k k] at hlen
    refine ⟨hnil, by omega, ?_⟩
    by_cases hfull : S.len k = (S.header k).room
    · exact .inr hfull
    · exact .inl (List.eq_nil_of_length_eq_zero (by omega))
  · exfalso
    by_cases hlong : (S.header k).room ≤ (S.header k).extension.length
    · obtain ⟨x, hx, hne⟩ := (S.header k).extension_ne hlong hc
      refine hne (hfill x ?_)
      rw [taken, List.take_append_of_le_length hlong]
      exact hx
    · refine hcd (hfill d ?_).symm
      obtain ⟨m, hm⟩ := Nat.exists_eq_succ_of_ne_zero (Nat.ne_of_gt (S.len_pos k))
      obtain ⟨r, hr⟩ : ∃ r, (S.header k).room - (S.header k).extension.length = r + 1 :=
        ⟨_, (Nat.succ_pred_eq_of_pos (by omega)).symm⟩
      rw [taken, List.take_append, hr, filledPayload, if_neg hkn, hm, List.replicate_succ,
        List.cons_append, List.take_succ_cons]
      exact List.mem_append_right _ List.mem_cons_self

/-- A packet that is too long, or has something else behind the fixed header, is not given out as
its payload. -/
theorem RtpStream.InSequence.fits (h : S.InSequence order N length)
    (hlength : streamBufferSize ≤ length) (hn : n < N) : S.Fits n := by
  obtain ⟨c, d, hc, hcd, hhead⟩ : ∃ c d : UInt8, (c = 0 ∨ c = 1) ∧ c ≠ d ∧
      (S.header n).extension.head? ≠ some c := by
    by_cases h0 : (S.header n).extension.head? = some 0
    · exact ⟨1, 0, .inr rfl, by decide, by rw [h0]; decide⟩
    · exact ⟨0, 1, .inl rfl, by decide, h0⟩
  obtain ⟨b, socket, fuel, hreturns⟩ := h _ (filledPayload_payload S c d n)
  have hreads := hreturns fuel (Nat.le_refl fuel)
  have hsocket : RtpSocketOnly (fun x => ∃ k, x = S.taken (filledPayload S c d n) k)
      (order.map (S.datagram (filledPayload S c d n))) := by
    intro datagram hd
    obtain ⟨k, -, rfl⟩ := List.mem_map.mp hd
    exact ⟨k, S.getrtp2_data _ k⟩
  have hmem : filledPayload S c d n n ∈ (List.range N).map (filledPayload S c d n) :=
    List.mem_map_of_mem (List.mem_range.mpr hn)
  obtain ⟨k, hk⟩ := rtpbufStart_only.reads hlength N hsocket hreads _ hmem
  exact S.fits_of_taken hc hcd hhead hk

/-- If the payloads come in sequence whatever they are, no packet is the first to
overtake one of an earlier turn. -/
theorem RtpStream.InSequence.keeps (h : S.InSequence order N length) (hd : RtpDelivery order)
    (hfits : ∀ k ∈ order, S.Fits k) (hall : ∀ k < N, k ∈ order)
    (hlength : streamBufferSize ≤ length) {limit m : Nat} (hkeeps : S.KeepsTurns order limit)
    (hn : order[limit]? = some n) (hmn : m < n) (hm : m ∉ order.take limit)
    (hturn : S.turn m ≠ S.turn n) (hnN : n < N) : False := by
  have hP := markedPayload_payload S n
  obtain ⟨b, socket, fuel, hreturns⟩ := h _ hP
  have hreads := hreturns (fuel + 1) (Nat.le_succ fuel)
  beta_reduce at hreads
  cases N with
  | zero => exact absurd hnN (Nat.not_lt_zero n)
  | succ N =>
    obtain ⟨b₁, hfirst, hready⟩ := rtp_first hd hP (hfits 0 (hall 0 (Nat.succ_pos N)))
    have hlimit : 1 ≤ limit := by
      refine Nat.pos_of_ne_zero fun hzero => ?_
      have h0 := hd.first
      rw [List.head?_eq_getElem?, ← hzero, hn] at h0
      rw [Option.some.inj h0, hzero] at hmn
      exact absurd hmn (Nat.not_lt_zero m)
    have hread := readRtp_of_fill hlength (hP.ne_nil 0) hfirst fuel
    rw [RtpStream.socket, List.drop_zero] at hread
    rw [rtpReads, hread, List.range_eq_range', List.range'_succ, List.map_cons] at hreads
    obtain ⟨⟨outs, rest⟩, hreads₁, heq⟩ := Option.map_eq_some_iff.mp hreads
    cases heq
    exact hready.reads_wrapped hd hfits hkeeps hn hmn hm hturn hnN hall hlength N hlimit
      (by omega) (Nat.le_refl 1) hreads₁

/-- If the payloads come in sequence whatever they are, no packet overtakes one of an
earlier turn. -/
theorem RtpStream.InSequence.tame (h : S.InSequence order N length) (hd : RtpDelivery order)
    (hall : ∀ k < N, k ∈ order) (hN : ∀ n ∈ order, n < N) (hlength : streamBufferSize ≤ length) :
    S.Tame order := by
  have hfits : ∀ n ∈ order, S.Fits n := fun n hn => h.fits hlength (hN n hn)
  have hkeeps : ∀ limit, S.KeepsTurns order limit := by
    intro limit
    induction limit with
    | zero => exact fun i hi => absurd hi (Nat.not_lt_zero i)
    | succ limit ih =>
      intro i hi n hn m hmn hm
      rcases Nat.lt_succ_iff_lt_or_eq.mp hi with hi | rfl
      · exact ih i hi n hn m hmn hm
      · by_contra hturn
        have hnN := hN n (List.mem_of_getElem? hn)
        exact h.keeps hd hfits hall hlength ih hn hmn hm hturn hnN
  exact ⟨hfits, hkeeps order.length⟩

/-- Of a stream delivered as the buffer allows, the payloads are returned in sequence,
each once, if no packet is longer than `getrtp2` reads or has an extension or padding that it
reads, and none overtakes a packet of an earlier turn of the sequence numbers.  When all packets
are delivered, this is also necessary. -/
theorem rtp_in_sequence (hd : RtpDelivery order) (hall : ∀ k < N, k ∈ order)
    (hlength : streamBufferSize ≤ length) :
    (S.Tame order → S.InSequence order N length) ∧
      ((∀ n ∈ order, n < N) → (S.InSequence order N length ↔ S.Tame order)) :=
  ⟨fun h => h.inSequence hd hall hlength,
    fun hN => ⟨fun h => h.tame hd hall hN hlength, fun h => h.inSequence hd hall hlength⟩⟩

/-- Packets of one byte, numbered from `start` on. -/
def byteStream (start : Nat) : RtpStream where
  start := start
  header := fun _ => ⟨0, 33, List.replicate 8 0, rfl, [], .inl rfl, [], .inl rfl⟩
  len := fun _ => 1
  len_pos := fun _ => Nat.one_pos

/-- The second and the third packet swapped. -/
theorem swapped_delivery : RtpDelivery [0, 2, 1] := by
  refine ⟨rfl, by decide, fun i n hn m hm => ?_⟩
  have hlt : n < 3 := by
    have hmem := List.mem_of_getElem? hn
    simp only [List.mem_cons, List.not_mem_nil, or_false] at hmem
    omega
  omega

/-- Within a turn, the three packets come in sequence. -/
theorem rtp_in_sequence_swapped : (byteStream 7).InSequence [0, 2, 1] 3 streamBufferSize := by
  have htame : (byteStream 7).Tame [0, 2, 1] := by
    refine ⟨fun n _ => ⟨rfl, (by decide : 1 ≤ rtpRecvSize - (12 + 4 * 0)), .inl rfl⟩,
      fun i _ n hn m hm _ => ?_⟩
    have hmem := List.mem_of_getElem? hn
    simp only [List.mem_cons, List.not_mem_nil, or_false] at hmem
    simp only [RtpStream.turn, byteStream]
    omega
  exact (rtp_in_sequence swapped_delivery (by decide) (Nat.le_refl _)).1 htame

/-- The third packet, the first one of a turn, overtakes the second one. -/
theorem rtp_out_of_sequence : RtpDelivery [0, 2, 1] ∧
    ¬ (byteStream 65534).InSequence [0, 2, 1] 3 streamBufferSize := by
  refine ⟨swapped_delivery, fun h => ?_⟩
  obtain ⟨b, socket, fuel, hreturns⟩ := h (fun n => [UInt8.ofNat n]) fun _ => rfl
  have hreads := hreturns (fuel + 1) (Nat.le_succ fuel)
  have hblocks : rtpReads (fuel + 1) streamBufferSize 3
      ([0, 2, 1].map ((byteStream 65534).datagram fun n => [UInt8.ofNat n])) rtpbufStart = none :=
        rfl
  cases hblocks.symm.trans hreads

end MPlayer
