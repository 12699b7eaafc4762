import MPlayer.Stream.RtpOrder
import Mathlib.Data.List.Nodup

/-!
# Successive reads

A read gives out the packet that is next: from the cache, or after the packets that
arrive before it.  At most 15 packets can be early, so the loop of `rtp_get_next` never
gives a packet up.

`limit` is a position in the order of arrival up to which no packet overtakes one of an
earlier turn.  A read ends before it, or reaches it with the cache still in order
(`RtpReady.fill`).
-/

namespace MPlayer

open Lib

variable {S : RtpStream} {P : Nat → List UInt8} {order : List Nat} {limit length : Nat}

/-- The datagrams from position `i` of the order on. -/
def RtpStream.socket (S : RtpStream) (P : Nat → List UInt8) (order : List Nat) (i : Nat) :
    List (List UInt8) := (order.drop i).map (S.datagram P)

variable {e i n : Nat} {b : RtpBuffer}

/-- With packet `e` missing, there are not more than `e + 15` others. -/
theorem arrived_length {A : List Nat} (hA : A.Nodup) (hahead : ∀ k ∈ A, k < e + 16) (he : e ∉ A) :
    A.length ≤ e + 15 := by
  have hsub : A ⊆ (List.range (e + 16)).erase e := by
    intro k hk
    rw [List.nodup_range.mem_erase_iff, List.mem_range]
    exact ⟨fun hke => he (hke ▸ hk), hahead k hk⟩
  have hle := (List.subperm_of_subset hA hsub).length_le
  rw [List.length_erase_of_mem (List.mem_range.mpr (by omega)), List.length_range] at hle
  omega

theorem RtpDelivery.notMem_take (hd : RtpDelivery order) (hn : order[i]? = some n) :
    n ∉ order.take i := by
  obtain ⟨hi, hget⟩ := List.getElem?_eq_some_iff.mp hn
  intro hmem
  obtain ⟨j, hj, hjn⟩ := List.mem_iff_getElem.mp hmem
  rw [List.getElem_take] at hjn
  rw [List.length_take] at hj
  have hij := (List.Nodup.getElem_inj_iff hd.once).mp (hjn.trans hget.symm)
  omega

/-- The packet at position `i` is one that is not there yet, and not far ahead. -/
theorem RtpReady.arrival (hd : RtpDelivery order) (h : RtpReady S P b e (order.take i))
    (he : e ∉ order.take i) (hn : order[i]? = some n) : e ≤ n ∧ n < e + 16 := by
  constructor
  · refine Nat.le_of_not_lt fun hlt => ?_
    exact hd.notMem_take hn (h.done n hlt)
  · refine Nat.lt_of_not_le fun hle => ?_
    exact he (hd.window i n hn e hle)

theorem take_arrival (hn : order[i]? = some n) : order.take (i + 1) = order.take i ++ [n] := by
  rw [List.take_add_one, hn]
  rfl

theorem socket_arrival (hn : order[i]? = some n) :
    S.socket P order i = S.datagram P n :: S.socket P order (i + 1) := by
  obtain ⟨hi, hget⟩ := List.getElem?_eq_some_iff.mp hn
  rw [RtpStream.socket, List.drop_eq_getElem_cons hi, hget]
  rfl

/-- A packet waits in the cache. -/
theorem rtpFill_cached (h : b.len b.first ≠ 0) (r : Nat) (socket : List (List UInt8)) :
    rtpFill r socket b = some ((rtpGetCached b).1, (rtpGetCached b).2, socket) := by
  cases r with
  | zero => rfl
  | succ r =>
    rw [rtpFill.eq_def]
    simp only [if_pos h]

/-- None does, and one arrives. -/
theorem rtpFill_arrival (h : b.len b.first = 0) (r : Nat) (datagram : List UInt8)
    (socket : List (List UInt8)) :
    rtpFill (r + 1) (datagram :: socket) b = (rtpCache datagram b).bind fun (out, b) =>
      if out ≠ [] then some (out, b, socket) else rtpFill r socket b := by
  rw [rtpFill, if_neg (not_not.mpr h)]

/-- One read, up to `limit`. -/
theorem RtpReady.fill (hd : RtpDelivery order) (hP : S.Payload P)
    (hfits : ∀ n ∈ order, S.Fits n) (hkeeps : S.KeepsTurns order limit)
    (hlimit : limit ≤ order.length) :
    ∀ (r : Nat) {i e : Nat} {b : RtpBuffer}, RtpReady S P b e (order.take i) → i ≤ limit →
      e ∈ order → e + 16 ≤ i + r →
      (∃ b' j, rtpFill r (S.socket P order i) b = some (P e, b', S.socket P order j) ∧
        RtpReady S P b' (e + 1) (order.take j) ∧ j ≤ limit) ∨
      (∃ b' r', rtpFill r (S.socket P order i) b = rtpFill (r' + 1) (S.socket P order limit) b' ∧
        RtpReady S P b' e (order.take limit) ∧ e ∉ order.take limit ∧ limit < order.length) := by
  intro r
  induction r with
  | zero =>
    intro i e b h hi he hr
    by_cases hmem : e ∈ order.take i
    · obtain ⟨hout, hready⟩ := h.getCached hP hmem
      have hlen : b.len b.first ≠ 0 := fun hz => (h.len_first hP).mp hz hmem
      exact Or.inl ⟨_, i, by rw [rtpFill_cached hlen, hout], hready, hi⟩
    · have hcount := arrived_length (hd.once.sublist (List.take_sublist i order)) h.ahead hmem
      rw [List.length_take, Nat.min_eq_left (Nat.le_trans hi hlimit)] at hcount
      omega
  | succ r ih =>
    intro i e b h hi he hr
    by_cases hmem : e ∈ order.take i
    · obtain ⟨hout, hready⟩ := h.getCached hP hmem
      have hlen : b.len b.first ≠ 0 := fun hz => (h.len_first hP).mp hz hmem
      exact Or.inl ⟨_, i, by rw [rtpFill_cached hlen, hout], hready, hi⟩
    · have hlen : b.len b.first = 0 := (h.len_first hP).mpr hmem
      have hlt : i < order.length := by
        refine Nat.lt_of_not_le fun hle => hmem ?_
        rwa [List.take_of_length_le hle]
      rcases Nat.lt_or_eq_of_le hi with hi | rfl
      · obtain ⟨n, hn⟩ : ∃ n, order[i]? = some n := ⟨_, List.getElem?_eq_getElem hlt⟩
        obtain ⟨hen, hne⟩ := h.arrival hd hmem hn
        have hfit := hfits n (List.mem_of_getElem? hn)
        rw [socket_arrival hn, rtpFill_arrival hlen]
        rcases Nat.lt_or_eq_of_le hen with hen | rfl
        · obtain ⟨b', hcache, hready⟩ :=
            h.arrive_ahead hP hen hne hfit (hkeeps i hi n hn e hen hmem)
          rw [← take_arrival hn] at hready
          simp only [hcache, Option.bind_some, ne_eq, not_true_eq_false, if_false]
          exact ih hready hi he (by omega)
        · obtain ⟨b', hcache, hready⟩ := h.arrive_next hP hmem hfit
          rw [← take_arrival hn] at hready
          refine Or.inl ⟨b', i + 1, ?_, hready, hi⟩
          simp only [hcache, Option.bind_some, ne_eq, hP.ne_nil e, not_false_eq_true, if_true]
      · exact Or.inr ⟨b, r, rfl, h, hmem, hlt⟩

/-- The first read gives out the first packet. -/
theorem rtp_first (hd : RtpDelivery order) (hP : S.Payload P) (hfits : S.Fits 0) :
    ∃ b, rtpGetNext (S.socket P order 0) rtpbufStart = some (P 0, b, S.socket P order 1) ∧
      RtpReady S P b 1 (order.take 1) := by
  have h0 : order[0]? = some 0 := by
    rw [← List.head?_eq_getElem?]
    exact hd.first
  have hlength : ((P 0).length : Int) ≠ 0 := by
    intro hz
    exact hP.ne_nil 0 (List.eq_nil_of_length_eq_zero (Int.ofNat.inj hz))
  have hnot : ¬ ((P 0).length : Int) < 0 := by omega
  refine ⟨{ rtpbufStart with
    isFirst := false
    first := 1
    seq := Function.update rtpbufStart.seq 1 (S.seq 1) }, ?_, ?_⟩
  · have hcache : rtpCache (S.datagram P 0) rtpbufStart = some (P 0, { rtpbufStart with
        isFirst := false
        first := 1
        seq := Function.update rtpbufStart.seq 1 (S.seq 1) }) := by
      rw [rtpCache, RtpStream.getrtp2_fits hP hfits]
      simp only [if_neg hlength, rtpbufStart, or_true, if_true, rtpFeed, if_neg hnot,
        rtpNextSeq_seq]
      rfl
    rw [rtpGetNext, socket_arrival h0, maxRtpPacketsIn, rtpFill_arrival rfl]
    simp only [hcache, Option.bind_some, ne_eq, hP.ne_nil 0, not_false_eq_true, if_true]
  · rw [take_arrival h0, List.take_zero, List.nil_append]
    have hnext : Function.update rtpbufStart.seq 1 (S.seq 1) 1 = S.seq 1 :=
      Function.update_self 1 _ _
    refine ⟨rfl, hnext, rfl, ?_, ?_, ?_, fun _ _ _ _ => rfl⟩
    · intro k hk
      rw [Nat.lt_one_iff.mp hk]
      exact List.mem_singleton_self 0
    · intro k hk
      rw [List.mem_singleton.mp hk]
      decide
    · intro k hk hmem
      rw [List.mem_singleton.mp hmem] at hk
      exact absurd hk (by decide)

/-- A read that finds a packet returns it. -/
theorem readRtp_of_fill {b' : RtpBuffer} {socket socket' : List (List UInt8)} {out : List UInt8}
    (hlength : streamBufferSize ≤ length) (hout : out ≠ [])
    (hfill : rtpGetNext socket b = some (out, b', socket')) (fuel : Nat) :
    readRtpFromServer (fuel + 1) length socket b = some (out, b', socket') := by
  rw [readRtpFromServer, if_neg (Nat.not_lt.mpr hlength), rtpReadLoop, hfill]
  simp only [Option.bind_some, if_neg hout]

/-- At least as many packets have arrived as were given out. -/
theorem RtpReady.le_length (h : RtpReady S P b e (order.take i)) (hi : i ≤ limit)
    (hlimit : limit ≤ order.length) : e ≤ i := by
  have hsub := List.subperm_of_subset List.nodup_range (fun k hk => h.done k (List.mem_range.mp hk))
  have hle := hsub.length_le
  rw [List.length_range, List.length_take] at hle
  omega

/-- If no packet overtakes one of an earlier turn, the packets come in sequence. -/
theorem RtpReady.reads (hd : RtpDelivery order) (hP : S.Payload P)
    (hfits : ∀ n ∈ order, S.Fits n) (hkeeps : S.KeepsTurns order order.length)
    (hlength : streamBufferSize ≤ length) :
    ∀ (c : Nat) {i e : Nat} {b : RtpBuffer}, RtpReady S P b e (order.take i) →
      i ≤ order.length → (∀ k, e ≤ k → k < e + c → k ∈ order) → e ≤ i →
      ∃ b' socket, ∀ fuel, rtpReads (fuel + 1) length c (S.socket P order i) b =
        some ((List.range' e c).map P, b', socket) := by
  intro c
  induction c with
  | zero => exact fun {i e b} _ _ _ _ => ⟨b, S.socket P order i, fun _ => rfl⟩
  | succ c ih =>
    intro i e b h hi hall hei
    have hfill := h.fill hd hP hfits hkeeps (Nat.le_refl _) (maxRtpPacketsIn - 3) hi
      (hall e (Nat.le_refl e) (by omega)) (by rw [maxRtpPacketsIn]; omega)
    rcases hfill with ⟨b', j, hfill, hready, hj⟩ | ⟨_, _, _, _, _, hlt⟩
    · have hej := hready.le_length hj (Nat.le_refl _)
      obtain ⟨b'', socket, hreads⟩ :=
        ih hready hj (fun k hk hk' => hall k (by omega) (by omega)) hej
      refine ⟨b'', socket, fun fuel => ?_⟩
      rw [rtpReads, readRtp_of_fill hlength (hP.ne_nil e) hfill fuel]
      simp only [Option.bind_some, hreads fuel, Option.map_some, List.range'_succ, List.map_cons]
    · exact absurd hlt (Nat.lt_irrefl _)

end MPlayer
