import MPlayer.Stream.Rtp
import MPlayer.Lib.Fuel
import Mathlib.Data.List.Perm.Subperm

/-!
# Packets in sequence

A stream of RTP packets is numbered from 0, and packet `n` has the sequence number
`start + n` modulo 2^16.  The order in which its packets arrive is a list of their
numbers.

As long as no packet overtakes one of an earlier turn of the sequence numbers, packet
`k` waits in slot `k` modulo 32 and `first` is the slot of the packet that is next:
`RtpReady`.
-/

namespace MPlayer

open Lib

/-! ## Streams -/

/-- An RTP packet but for its sequence number and its payload: the marker and payload type, the
fields behind the sequence number, and the header extension and the padding, which are empty if
there are none.  An extension counts its words in its second 16 bits, and padding its bytes in its
last byte. -/
structure RtpHeader where
  cc : Fin 16
  typ : UInt8
  fields : List UInt8
  fields_length : fields.length = 8 + 4 * cc.val
  extension : List UInt8
  extension_length : extension = [] ∨ extension.length =
    4 + 4 * (256 * (extension.getD 2 0).toNat + (extension.getD 3 0).toNat)
  padding : List UInt8
  padding_length : padding = [] ∨ padding.getLast?.map UInt8.toNat = some padding.length

/-- The fixed header with the sequence number `seq`, in front of the extension. -/
def RtpHeader.bytes (h : RtpHeader) (seq : Nat) : List UInt8 :=
  UInt8.ofNat (128 + 32 * (!h.padding.isEmpty).toNat + 16 * (!h.extension.isEmpty).toNat +
    h.cc.val) :: h.typ :: UInt8.ofNat (seq / 256) :: UInt8.ofNat (seq % 256) :: h.fields

/-- How many bytes behind the fixed header `getrtp2` asks for. -/
def RtpHeader.room (h : RtpHeader) : Nat := rtpRecvSize - (12 + 4 * h.cc.val)

/-- A stream of packets, but for their payloads, which are not empty. -/
structure RtpStream where
  start : Nat
  header : Nat → RtpHeader
  len : Nat → Nat
  len_pos : ∀ n, 0 < len n

variable (S : RtpStream)

/-- The sequence number of packet `n`. -/
def RtpStream.seq (n : Nat) : Nat := (S.start + n) % 65536

/-- The turn of the sequence numbers that packet `n` is in. -/
def RtpStream.turn (n : Nat) : Nat := (S.start + n) / 65536

/-- Packet `n` with its payload. -/
def RtpStream.datagram (payload : Nat → List UInt8) (n : Nat) : List UInt8 :=
  (S.header n).bytes (S.seq n) ++ ((S.header n).extension ++ (payload n ++ (S.header n).padding))

/-- Packet `n` has no extension, its payload is no longer than what `getrtp2` asks for, and it has
no padding that `getrtp2` asks for. -/
def RtpStream.Fits (n : Nat) : Prop :=
  (S.header n).extension = [] ∧ S.len n ≤ (S.header n).room ∧
    ((S.header n).padding = [] ∨ S.len n = (S.header n).room)

/-- Payloads of the stream. -/
def RtpStream.Payload (payload : Nat → List UInt8) : Prop := ∀ n, (payload n).length = S.len n

/-- The packets arrive in the order `order`: the first packet first, none twice, and
packet `n` after the packets up to `n - 16`. -/
structure RtpDelivery (order : List Nat) : Prop where
  first : order.head? = some 0
  once : order.Nodup
  window : ∀ i n, order[i]? = some n → ∀ m, m + 16 ≤ n → m ∈ order.take i

/-- Of the packets that arrive before position `limit`, none overtakes one of an earlier
turn. -/
def RtpStream.KeepsTurns (order : List Nat) (limit : Nat) : Prop :=
  ∀ i < limit, ∀ n, order[i]? = some n → ∀ m < n, m ∉ order.take i → S.turn m = S.turn n

/-! ## Parsing -/

theorem RtpHeader.bytes_length (h : RtpHeader) (seq : Nat) :
    (h.bytes seq).length = 12 + 4 * h.cc.val := by
  simp only [bytes, List.length_cons, h.fields_length]
  omega

theorem rtpCc (p x : Bool) (c : Fin 16) :
    (UInt8.ofNat (128 + 32 * p.toNat + 16 * x.toNat + c.val) &&& 0x0f).toNat = c.val := by
  revert p x c
  decide

theorem RtpHeader.room_pos (h : RtpHeader) : 1518 ≤ h.room := by
  have hcc := h.cc.isLt
  rw [room, rtpRecvSize]
  omega

/-- `getrtp2` finds the sequence number, and takes all that follows the fixed header for the
payload, up to its limit. -/
theorem getrtp2_bytes (h : RtpHeader) {seq : Nat} (hseq : seq < 65536) (p : List UInt8) :
    getrtp2 (h.bytes seq ++ p) =
      { sequence := seq
        lengthData := (p.take h.room).length
        data := p.take h.room } := by
  rw [RtpHeader.room]
  have hlength := h.bytes_length seq
  have hcc := h.cc.isLt
  have hbuf : (h.bytes seq ++ p).take rtpRecvSize =
      h.bytes seq ++ p.take (rtpRecvSize - (12 + 4 * h.cc.val)) := by
    rw [List.take_append, hlength, List.take_of_length_le]
    rw [hlength, rtpRecvSize]
    omega
  have hlong : ¬ (h.bytes seq ++ p.take (rtpRecvSize - (12 + 4 * h.cc.val))).length < 12 := by
    rw [List.length_append, hlength]
    omega
  have hseq' : 256 * (UInt8.ofNat (seq / 256)).toNat + (UInt8.ofNat (seq % 256)).toNat = seq := by
    rw [UInt8.toNat_ofNat', UInt8.toNat_ofNat']
    omega
  rw [getrtp2, hbuf, if_neg hlong]
  simp only [RtpHeader.bytes, List.cons_append, List.getD_cons_zero, List.getD_cons_succ, rtpCc,
    hseq', RtpFrame.mk.injEq, true_and]
  constructor
  · simp only [List.length_cons, List.length_append, h.fields_length]
    omega
  · have hdrop : (h.bytes seq ++ p.take (rtpRecvSize - (12 + 4 * h.cc.val))).drop
        (12 + 4 * h.cc.val) = p.take (rtpRecvSize - (12 + 4 * h.cc.val)) := List.drop_left' hlength
    exact hdrop

theorem RtpStream.seq_lt (n : Nat) : S.seq n < 65536 := Nat.mod_lt _ (by decide)

variable {S} {P : Nat → List UInt8}

theorem RtpStream.Payload.ne_nil (hP : S.Payload P) (n : Nat) : P n ≠ [] := by
  intro h
  have hlen := hP n
  rw [h, List.length_nil] at hlen
  exact absurd hlen.symm (Nat.ne_of_gt (S.len_pos n))

theorem RtpStream.getrtp2_fits (hP : S.Payload P) {n : Nat} (hfits : S.Fits n) :
    getrtp2 (S.datagram P n) =
      { sequence := S.seq n, lengthData := (P n).length, data := P n } := by
  obtain ⟨hext, hle, hpad⟩ := hfits
  have hdata : ((S.header n).extension ++ (P n ++ (S.header n).padding)).take (S.header n).room =
      P n := by
    rw [hext, List.nil_append]
    rcases hpad with hpad | hlen
    · rw [hpad, List.append_nil, List.take_of_length_le (by rwa [hP n])]
    · rw [List.take_left' (by rw [hP n, hlen])]
  rw [datagram, getrtp2_bytes _ (S.seq_lt n), hdata]

/-! ## The cache between two packets -/

/-- The packets of `A` have arrived and those before `e` were given out. -/
structure RtpReady (S : RtpStream) (P : Nat → List UInt8) (b : RtpBuffer) (e : Nat)
    (A : List Nat) : Prop where
  first : b.first = e % maxRtpPacketsIn
  next : b.seq (e % maxRtpPacketsIn) = S.seq e
  started : b.isFirst = false
  done : ∀ k < e, k ∈ A
  ahead : ∀ k ∈ A, k < e + 16
  cached : ∀ k, e ≤ k → k ∈ A → b.data (k % maxRtpPacketsIn) = P k ∧
    b.len (k % maxRtpPacketsIn) = (P k).length ∧ b.seq (k % maxRtpPacketsIn) = S.seq k
  empty : ∀ k, e ≤ k → k < e + maxRtpPacketsIn → k ∉ A → b.len (k % maxRtpPacketsIn) = 0

variable {b b' : RtpBuffer} {e n : Nat} {A : List Nat}

theorem rtpNextSeq_seq (n : Nat) : rtpNextSeq (S.seq n) = S.seq (n + 1) := by
  rw [rtpNextSeq, RtpStream.seq, RtpStream.seq]
  omega

theorem rtpSlot_succ (n : Nat) :
    (1 + n % maxRtpPacketsIn) % maxRtpPacketsIn = (n + 1) % maxRtpPacketsIn := by
  rw [maxRtpPacketsIn]
  omega

/-- Different packets that are near have different slots. -/
theorem rtpSlot_ne {k : Nat} (h : n ≠ k) (hn : n < k + maxRtpPacketsIn)
    (hk : k < n + maxRtpPacketsIn) : k % maxRtpPacketsIn ≠ n % maxRtpPacketsIn := by
  rw [maxRtpPacketsIn] at *
  omega

/-- The slot of the packet that is next is empty if and only if it has not arrived. -/
theorem RtpReady.len_first (h : RtpReady S P b e A) (hP : S.Payload P) :
    b.len b.first = 0 ↔ e ∉ A := by
  rw [h.first]
  constructor
  · intro hlen hmem
    have hcached := (h.cached e (Nat.le_refl e) hmem).2.1
    rw [hlen] at hcached
    exact hP.ne_nil e (List.eq_nil_of_length_eq_zero hcached.symm)
  · exact h.empty e (Nat.le_refl e) (by rw [maxRtpPacketsIn]; omega)

/-- The packet that is next comes out of the cache. -/
theorem RtpReady.getCached (h : RtpReady S P b e A) (hP : S.Payload P) (he : e ∈ A) :
    (rtpGetCached b).1 = P e ∧ RtpReady S P (rtpGetCached b).2 (e + 1) A := by
  obtain ⟨hdata, hlen, hseq⟩ := h.cached e (Nat.le_refl e) he
  have hfirst : b.len b.first ≠ 0 := fun hz => (h.len_first hP).mp hz he
  have hskip : rtpSkipLost b maxRtpPacketsIn b.first = e % maxRtpPacketsIn := by
    rw [maxRtpPacketsIn, rtpSkipLost, if_neg hfirst, h.first, maxRtpPacketsIn]
  have hother : ∀ k, e + 1 ≤ k → k ∈ A → k % maxRtpPacketsIn ≠ e % maxRtpPacketsIn := by
    intro k hk hmem
    have hahead := h.ahead k hmem
    exact rtpSlot_ne (by omega) (by rw [maxRtpPacketsIn]; omega) (by rw [maxRtpPacketsIn]; omega)
  refine ⟨?_, ?_, ?_, h.started, ?_, ?_, ?_, ?_⟩
  · simp only [rtpGetCached, hskip, hdata, hlen, List.take_length]
  · simp only [rtpGetCached, hskip, rtpSlot_succ]
  · simp only [rtpGetCached, hskip, rtpSlot_succ, Function.update_self, hseq, rtpNextSeq_seq]
  · intro k hk
    rcases Nat.lt_succ_iff_lt_or_eq.mp hk with hk | rfl
    · exact h.done k hk
    · exact he
  · exact fun k hk => Nat.lt_succ_of_lt (h.ahead k hk)
  · intro k hk hmem
    obtain ⟨hd, hl, hs⟩ := h.cached k (Nat.le_of_succ_le hk) hmem
    have hne := hother k hk hmem
    simp only [rtpGetCached, hskip, rtpSlot_succ, Function.update_of_ne hne]
    refine ⟨hd, hl, ?_⟩
    by_cases hslot : k % maxRtpPacketsIn = (e + 1) % maxRtpPacketsIn
    · rw [hslot, Function.update_self, hseq, rtpNextSeq_seq]
      have hahead := h.ahead k hmem
      have hk' : k = e + 1 := by
        rw [maxRtpPacketsIn] at hslot
        omega
      rw [hk']
    · rw [Function.update_of_ne hslot, hs]
  · intro k hk hlt hmem
    simp only [rtpGetCached, hskip]
    by_cases hslot : k % maxRtpPacketsIn = e % maxRtpPacketsIn
    · rw [hslot, Function.update_self]
    · rw [Function.update_of_ne hslot]
      refine h.empty k (Nat.le_of_succ_le hk) ?_ hmem
      rcases Nat.lt_succ_iff_lt_or_eq.mp (by omega : k < e + maxRtpPacketsIn + 1) with h' | h'
      · exact h'
      · rw [h', Nat.add_mod_right] at hslot
        exact absurd rfl hslot

/-- The packet that is next arrives, and is given out. -/
theorem RtpReady.arrive_next (h : RtpReady S P b e A) (hP : S.Payload P) (he : e ∉ A)
    (hfits : S.Fits e) :
    ∃ b', rtpCache (S.datagram P e) b = some (P e, b') ∧ RtpReady S P b' (e + 1) (A ++ [e]) := by
  have hlength : ((P e).length : Int) ≠ 0 := by
    intro hz
    exact hP.ne_nil e (List.eq_nil_of_length_eq_zero (Int.ofNat.inj hz))
  refine ⟨{ b with
    isFirst := false
    first := (e + 1) % maxRtpPacketsIn
    seq := Function.update b.seq ((e + 1) % maxRtpPacketsIn) (S.seq (e + 1)) }, ?_, ?_⟩
  · have hnot : ¬ ((P e).length : Int) < 0 := by omega
    rw [rtpCache, RtpStream.getrtp2_fits hP hfits]
    simp only [h.first, h.next, if_neg hlength, Int.sub_self, true_or, if_true, rtpFeed,
      if_neg hnot,
      rtpSlot_succ, rtpNextSeq_seq]
  · refine ⟨rfl, Function.update_self .., rfl, ?_, ?_, ?_, ?_⟩
    · intro k hk
      rw [List.mem_append, List.mem_singleton]
      exact (Nat.lt_succ_iff_lt_or_eq.mp hk).imp (h.done k) id
    · intro k hk
      rcases List.mem_append.mp hk with hk | hk
      · exact Nat.lt_succ_of_lt (h.ahead k hk)
      · rw [List.mem_singleton.mp hk]
        omega
    · intro k hk hmem
      rcases List.mem_append.mp hmem with hmem | hmem
      · obtain ⟨hd, hl, hs⟩ := h.cached k (Nat.le_of_succ_le hk) hmem
        refine ⟨hd, hl, ?_⟩
        by_cases hslot : k % maxRtpPacketsIn = (e + 1) % maxRtpPacketsIn
        · have hahead := h.ahead k hmem
          have hk' : k = e + 1 := by
            rw [maxRtpPacketsIn] at hslot
            omega
          rw [hk']
          exact Function.update_self ..
        · exact (Function.update_of_ne hslot ..).trans hs
      · rw [List.mem_singleton.mp hmem] at hk
        exact absurd hk (Nat.not_succ_le_self e)
    · intro k hk hlt hmem
      rw [List.mem_append, not_or] at hmem
      rcases Nat.lt_succ_iff_lt_or_eq.mp (by omega : k < e + maxRtpPacketsIn + 1) with h' | rfl
      · exact h.empty k (Nat.le_of_succ_le hk) h' hmem.1
      · have hempty := h.empty e (Nat.le_refl e) (by rw [maxRtpPacketsIn]; omega) he
        rw [Nat.add_mod_right]
        exact hempty

/-- A packet of the same turn arrives early, and is put into its slot. -/
theorem RtpReady.arrive_ahead (h : RtpReady S P b e A) (hP : S.Payload P) (he : e < n)
    (hn : n < e + 16) (hfits : S.Fits n) (hturn : S.turn e = S.turn n) :
    ∃ b', rtpCache (S.datagram P n) b = some ([], b') ∧ RtpReady S P b' e (A ++ [n]) := by
  have hlength : ((P n).length : Int) ≠ 0 := by
    intro hz
    exact hP.ne_nil n (List.eq_nil_of_length_eq_zero (Int.ofNat.inj hz))
  have hnew : (S.seq n : Int) - S.seq e = (n - e : Nat) := by
    rw [RtpStream.turn, RtpStream.turn] at hturn
    rw [RtpStream.seq, RtpStream.seq]
    omega
  have hslot : ((n - e : Nat) + e % maxRtpPacketsIn) % maxRtpPacketsIn = n % maxRtpPacketsIn := by
    rw [maxRtpPacketsIn]
    omega
  have hne : ∀ k, e ≤ k → k < e + maxRtpPacketsIn → n ≠ k →
      k % maxRtpPacketsIn ≠ n % maxRtpPacketsIn := by
    intro k hk hlt hnk
    exact rtpSlot_ne hnk (by rw [maxRtpPacketsIn]; omega) (by omega)
  refine ⟨{ b with
    data := Function.update b.data (n % maxRtpPacketsIn) (P n)
    len := Function.update b.len (n % maxRtpPacketsIn) (P n).length
    seq := Function.update b.seq (n % maxRtpPacketsIn) (S.seq n) }, ?_, ?_⟩
  · have h0 : ¬ ((n - e : Nat) : Int) = 0 := by omega
    have h1 : ¬ ((n - e : Nat) : Int) > (maxRtpPacketsIn : Nat) := by
      rw [maxRtpPacketsIn]
      omega
    have h2 : ¬ ((n - e : Nat) : Int) < 0 := by omega
    have h3 : ¬ ((P n).length : Int) < 0 := by omega
    rw [rtpCache, RtpStream.getrtp2_fits hP hfits]
    simp only [h.first, h.next, hnew, h.started, if_neg hlength, h0, h1, h2, h3, Bool.false_eq_true,
      or_self, if_false, Int.toNat_natCast, hslot]
  · refine ⟨h.first, ?_, h.started, ?_, ?_, ?_, ?_⟩
    · have hslot' := hne e (Nat.le_refl e) (by rw [maxRtpPacketsIn]; omega) (Nat.ne_of_gt he)
      exact (Function.update_of_ne hslot' ..).trans h.next
    · exact fun k hk => List.mem_append_left _ (h.done k hk)
    · intro k hk
      rcases List.mem_append.mp hk with hk | hk
      · exact h.ahead k hk
      · rw [List.mem_singleton.mp hk]
        exact hn
    · intro k hk hmem
      by_cases hnk : n = k
      · subst hnk
        exact ⟨Function.update_self .., Function.update_self .., Function.update_self ..⟩
      · have hmem' : k ∈ A := by
          rcases List.mem_append.mp hmem with hmem | hmem
          · exact hmem
          · exact absurd (List.mem_singleton.mp hmem).symm hnk
        obtain ⟨hd, hl, hs⟩ := h.cached k hk hmem'
        have hahead := h.ahead k hmem'
        have hslot' := hne k hk (by rw [maxRtpPacketsIn]; omega) hnk
        exact ⟨(Function.update_of_ne hslot' ..).trans hd,
          (Function.update_of_ne hslot' ..).trans hl,
          (Function.update_of_ne hslot' ..).trans hs⟩
    · intro k hk hlt hmem
      rw [List.mem_append, List.mem_singleton, not_or] at hmem
      have hslot' := hne k hk hlt fun hnk => hmem.2 hnk.symm
      exact (Function.update_of_ne hslot' ..).trans (h.empty k hk hlt hmem.1)

end MPlayer
