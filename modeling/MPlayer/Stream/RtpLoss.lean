import MPlayer.Stream.RtpWrap

/-!
# Losses and duplicates

What `rtp_get_next` hands out when packets get lost, arrive twice or arrive late.  A call is
a sequence of turns (`RtpTurn`): a packet arrives and is held or dropped, a packet arrives and
is handed out, or the next packet is taken from the cache.  Each turn is kept with the cache
before it, so that a run of calls can be told what each packet met.

Slot `first + k` of the cache is for packet `expected + k`, but a packet that is 32 ahead is
let through and put into slot `first`.  If no other packet waits then, it is like a loss of
32 packets.  If one does, the numbers of the slots and their packets no longer fit.
-/

namespace MPlayer

open Lib

/-! ## Turns -/

/-- What a turn of `rtp_get_next` does. -/
inductive RtpEvent where
  /-- A packet arrives and is not handed out. -/
  | held (f : RtpFrame)
  /-- A packet arrives and is handed out. -/
  | fed (f : RtpFrame)
  /-- The cache is asked, for the slot with the number `seq`. -/
  | cached (seq : Nat) (payload : List UInt8)

/-- A turn, with the cache before it. -/
structure RtpTurn where
  before : RtpBuffer
  event : RtpEvent

/-- The turn that asks the cache. -/
def rtpCachedTurn (b : RtpBuffer) : RtpTurn :=
  ⟨b, .cached (b.seq (rtpSkipLost b maxRtpPacketsIn b.first)) (rtpGetCached b).1⟩

/-- The loop of `rtp_get_next`, with its turns. -/
def rtpFillTurns : Nat → List (List UInt8) → RtpBuffer →
    Option (List RtpTurn × RtpBuffer × List (List UInt8))
  | 0, socket, b => some ([rtpCachedTurn b], (rtpGetCached b).2, socket)
  | n + 1, socket, b =>
    if b.len b.first ≠ 0 then some ([rtpCachedTurn b], (rtpGetCached b).2, socket)
    else
      match socket with
      | [] => none
      | datagram :: socket =>
        (rtpCache datagram b).bind fun (out, b') =>
          if out ≠ [] then some ([⟨b, .fed (getrtp2 datagram)⟩], b', socket)
          else (rtpFillTurns n socket b').map
            fun (turns, rest) => (⟨b, .held (getrtp2 datagram)⟩ :: turns, rest)

/-- Successive calls of `rtp_get_next`, with their turns. -/
def rtpCalls : Nat → List (List UInt8) → RtpBuffer →
    Option (List RtpTurn × RtpBuffer × List (List UInt8))
  | 0, socket, b => some ([], b, socket)
  | c + 1, socket, b =>
    (rtpFillTurns (maxRtpPacketsIn - 3) socket b).bind fun (turns, b, socket) =>
      (rtpCalls c socket b).map fun (turns', rest) => (turns ++ turns', rest)

/-- The packet that arrives in a turn. -/
def RtpEvent.received : RtpEvent → Option RtpFrame
  | held f => some f
  | fed f => some f
  | cached _ _ => none

/-- What a turn hands out, with the sequence number of its packet or slot. -/
def RtpEvent.handed : RtpEvent → Option (Nat × List UInt8)
  | held _ => none
  | fed f => some (f.sequence, f.data)
  | cached seq payload => if payload = [] then none else some (seq, payload)

/-- The packets that arrive, in order. -/
def receivedBy (turns : List RtpTurn) : List RtpFrame := turns.filterMap fun t => t.event.received

/-- What is handed out, in order. -/
def handedBy (turns : List RtpTurn) : List (Nat × List UInt8) :=
  turns.filterMap fun t => t.event.handed

variable {b b' : RtpBuffer} {socket socket' : List (List UInt8)} {turns : List RtpTurn}

@[simp] theorem receivedBy_append (turns turns' : List RtpTurn) :
    receivedBy (turns ++ turns') = receivedBy turns ++ receivedBy turns' := List.filterMap_append

@[simp] theorem handedBy_append (turns turns' : List RtpTurn) :
    handedBy (turns ++ turns') = handedBy turns ++ handedBy turns' := List.filterMap_append

/-! ## What `rtp_cache` does to a packet -/

variable {datagram out : List UInt8} {j k : Nat}

/-- A packet that is longer than nothing is that long. -/
theorem getrtp2_ne_nil (h : 0 < (getrtp2 datagram).lengthData) : (getrtp2 datagram).data ≠ [] := by
  intro hnil
  have hlength := getrtp2_length (Int.le_of_lt h)
  rw [hnil, List.length_nil] at hlength
  omega

theorem rtpFeed_some {f : RtpFrame} (h : rtpFeed f b = some (out, b')) :
    0 ≤ f.lengthData ∧ out = f.data ∧ b' = b := by
  rw [rtpFeed] at h
  split at h
  · cases h
  · rename_i hnonneg
    cases h
    exact ⟨Int.not_lt.mp hnonneg, rfl, rfl⟩

/-- A packet restarts the cache: it is far ahead, or far behind and in no slot. -/
def RtpBuffer.Restarts (b : RtpBuffer) (f : RtpFrame) : Prop :=
  b.seq b.first + maxRtpPacketsIn < f.sequence ∨
    f.sequence + 3 * maxRtpPacketsIn ≤ b.seq b.first ∧ ∀ i < maxRtpPacketsIn, b.seq i ≠ f.sequence

/-- The cache behind a packet that is handed out on arrival. -/
def rtpPass (f : RtpFrame) (b : RtpBuffer) : RtpBuffer :=
  { b with
    isFirst := false
    first := (1 + b.first) % maxRtpPacketsIn
    seq := Function.update b.seq ((1 + b.first) % maxRtpPacketsIn) (rtpNextSeq f.sequence) }

theorem rtpPass_next (f : RtpFrame) (b : RtpBuffer) :
    (rtpPass f b).seq (rtpPass f b).first = rtpNextSeq f.sequence := Function.update_self ..

/-- What `rtp_cache` does with a packet that does not restart the cache: it drops it, hands it
out, or puts it into a slot. -/
inductive RtpKept (b : RtpBuffer) (f : RtpFrame) : List UInt8 → RtpBuffer → Prop
  | dropped : RtpKept b f [] b
  | fed (hout : f.data ≠ []) (hseq : b.isFirst = true ∨ f.sequence = b.seq b.first) :
      RtpKept b f f.data (rtpPass f b)
  | stored {k : Nat} (hne : f.lengthData ≠ 0) (hstarted : b.isFirst = false) (hk : 0 < k)
      (hle : k ≤ maxRtpPacketsIn) (hseq : f.sequence = b.seq b.first + k)
        (hlength : f.data.length = f.lengthData.toNat) :
      RtpKept b f [] (rtpStore f ((k + b.first) % maxRtpPacketsIn) b)

theorem rtpCache_kept {datagram out : List UInt8}
    (hkeeps : (getrtp2 datagram).lengthData ≠ 0 → b.isFirst = false →
      ¬ b.Restarts (getrtp2 datagram)) (h : rtpCache datagram b = some (out, b')) :
        RtpKept b (getrtp2 datagram) out b' := by
  rw [rtpCache] at h
  simp only [] at h
  split at h
  case isTrue => cases h; exact .dropped
  case isFalse hzero =>
    split at h
    case isTrue hnext =>
      obtain ⟨hnonneg, rfl, rfl⟩ := rtpFeed_some h
      refine .fed (getrtp2_ne_nil (by omega)) ?_
      exact hnext.symm.imp id fun heq => by omega
    case isFalse hnext =>
      rw [not_or, Bool.not_eq_true] at hnext
      obtain ⟨hne, hstarted⟩ := hnext
      have hnot := hkeeps hzero hstarted
      split at h
      case isTrue hahead => exact absurd (Or.inl (by omega)) hnot
      case isFalse hahead =>
        split at h
        case isTrue hbehind =>
          split at h
          case isTrue => cases h; exact .dropped
          case isFalse hunknown =>
            split at h
            case isTrue => cases h; exact .dropped
            case isFalse hold =>
              refine absurd (Or.inr ⟨by omega, fun i hi heq => hunknown ?_⟩) hnot
              exact List.any_eq_true.mpr ⟨i, List.mem_range.mpr hi, beq_iff_eq.mpr heq⟩
        case isFalse hbehind =>
          split at h
          case isTrue => cases h
          case isFalse hnonneg =>
            cases h
            have hlength := getrtp2_length (Int.not_lt.mp hnonneg)
            have hk : (getrtp2 datagram).sequence = b.seq b.first +
                (((getrtp2 datagram).sequence : Int) - b.seq b.first).toNat := by omega
            exact .stored hzero hstarted (by omega) (by omega) hk (by omega)

/-! ## The turns of a call -/

/-- What `rtp_cache` hands out is the data of the packet. -/
theorem rtpCache_out (h : rtpCache datagram b = some (out, b')) :
    out = [] ∨ out = (getrtp2 datagram).data := by
  obtain ⟨rfl, -⟩ | ⟨first, seq, hfeed⟩ | hfeed | ⟨slot, rfl, -, -⟩ := rtpCache_cases h
  · exact Or.inl rfl
  · exact Or.inr (rtpFeed_some hfeed).2.1
  · exact Or.inr (rtpFeed_some hfeed).2.1
  · exact Or.inl rfl

/-- What a call returns, from its turns. -/
def returnedBy (turns : List RtpTurn) : List UInt8 := ((handedBy turns).map Prod.snd).headD []

theorem returnedBy_cached (b : RtpBuffer) : returnedBy [rtpCachedTurn b] = (rtpGetCached b).1 := by
  by_cases hnil : (rtpGetCached b).1 = []
  · rw [hnil]
    simp only [returnedBy, handedBy, rtpCachedTurn, List.filterMap_cons, RtpEvent.handed,
      if_pos hnil]
    rfl
  · simp only [returnedBy, handedBy, rtpCachedTurn, List.filterMap_cons, RtpEvent.handed,
      if_neg hnil]
    rfl

/-- A call returns what its turns hand out, or nothing. -/
theorem rtpFill_turns : ∀ (n : Nat) (socket : List (List UInt8)) (b : RtpBuffer),
    rtpFill n socket b = (rtpFillTurns n socket b).map fun r => (returnedBy r.1, r.2)
  | 0, socket, b => by
    rw [rtpFill, rtpFillTurns, Option.map_some, returnedBy_cached]
  | n + 1, socket, b => by
    rw [rtpFill.eq_def, rtpFillTurns.eq_def]
    by_cases hlen : b.len b.first ≠ 0
    · simp only [if_pos hlen, Option.map_some, returnedBy_cached]
    · simp only [if_neg hlen]
      cases socket with
      | nil => rfl
      | cons datagram socket =>
        simp only []
        cases hcache : rtpCache datagram b with
        | none => rfl
        | some r =>
          obtain ⟨out, b'⟩ := r
          simp only [Option.bind_some]
          by_cases hout : out ≠ []
          · obtain rfl := (rtpCache_out hcache).resolve_left hout
            simp only [if_pos hout, Option.map_some]
            rfl
          · simp only [if_neg hout, rtpFill_turns n socket b', Option.map_map]
            rfl

/-! ## The invariant -/

/-- The slot for the packet that is `k` behind the one expected. -/
def RtpBuffer.slot (b : RtpBuffer) (k : Nat) : Nat := (b.first + k) % maxRtpPacketsIn

theorem RtpBuffer.slot_inj (hj : j < maxRtpPacketsIn) (hk : k < maxRtpPacketsIn)
    (h : b.slot j = b.slot k) : j = k := by
  rw [slot, slot, maxRtpPacketsIn] at h
  rw [maxRtpPacketsIn] at hj hk
  omega

/-- What slot `k` holds is a packet received with the number of the slot, `k` behind the one
expected. -/
def RtpBuffer.SlotSound (b : RtpBuffer) (received : List RtpFrame) (k : Nat) : Prop :=
  b.len (b.slot k) ≠ 0 → b.seq (b.slot k) = b.seq b.first + k ∧
    ∃ f ∈ received, f.sequence = b.seq b.first + k ∧
      f.data = (b.data (b.slot k)).take (b.len (b.slot k))

/-- What was handed out comes in increasing order, and is what was received with its number. -/
structure HandedInOrder (received : List RtpFrame) (handed : List (Nat × List UInt8)) : Prop where
  increasing : handed.Pairwise fun x y => x.1 < y.1
  genuine : ∀ x ∈ handed, ∃ f ∈ received, f.sequence = x.1 ∧ f.data = x.2

/-- The cache after some packets were received and some payloads handed out. -/
structure RtpInOrder (b : RtpBuffer) (received : List RtpFrame)
    (handed : List (Nat × List UInt8)) : Prop where
  order : HandedInOrder received handed
  received_lt : ∀ f ∈ received, f.sequence < 65536
  first_lt : b.first < maxRtpPacketsIn
  seq_lt : b.seq b.first < 65536
  before : b.isFirst = true → handed = [] ∧ ∀ i < maxRtpPacketsIn, b.len i = 0
  slots : b.isFirst = false → b.seq b.first ≠ 0 → ∀ k < maxRtpPacketsIn, b.SlotSound received k
  expected : b.isFirst = false → b.seq b.first ≠ 0 → ∀ x ∈ handed, x.1 < b.seq b.first

theorem rtpbufStart_inOrder : RtpInOrder rtpbufStart [] [] := by
  refine ⟨⟨.nil, fun x hx => absurd hx List.not_mem_nil⟩, fun f hf => absurd hf List.not_mem_nil,
    maxRtpPacketsIn_pos, Nat.zero_lt_succ _, fun _ => ⟨rfl, fun _ _ => rfl⟩, fun h => ?_,
    fun h => ?_⟩
  · cases h
  · cases h

/-- The number expected next has not wrapped. -/
def RtpBuffer.InTurn (b : RtpBuffer) : Prop := b.isFirst = false → b.seq b.first ≠ 0

/-- A packet does not come exactly 32 ahead while another one waits in the cache. -/
def RtpBuffer.Leaves (b : RtpBuffer) (f : RtpFrame) : Prop :=
  f.sequence = b.seq b.first + maxRtpPacketsIn → ∀ i < maxRtpPacketsIn, b.len i = 0

variable {received : List RtpFrame} {handed : List (Nat × List UInt8)} {f : RtpFrame}

theorem HandedInOrder.mono {received' : List RtpFrame} (h : HandedInOrder received handed)
    (hsub : received ⊆ received') : HandedInOrder received' handed :=
  ⟨h.increasing, fun x hx => by
    obtain ⟨f, hf, heq⟩ := h.genuine x hx
    exact ⟨f, hsub hf, heq⟩⟩

theorem RtpBuffer.SlotSound.mono {received' : List RtpFrame} (h : b.SlotSound received k)
    (hsub : received ⊆ received') : b.SlotSound received' k := by
  intro hlen
  obtain ⟨hseq, f, hf, heq⟩ := h hlen
  exact ⟨hseq, f, hsub hf, heq⟩

theorem RtpInOrder.received_snoc (h : RtpInOrder b received handed) (hlt : f.sequence < 65536) :
    ∀ g ∈ received ++ [f], g.sequence < 65536 := by
  intro g hg
  obtain hg | hg := List.mem_append.mp hg
  · exact h.received_lt g hg
  · rw [List.mem_singleton.mp hg]
    exact hlt

/-- A packet is dropped. -/
theorem RtpInOrder.drop (h : RtpInOrder b received handed) (hlt : f.sequence < 65536) :
    RtpInOrder b (received ++ [f]) handed :=
  have hsub : received ⊆ received ++ [f] := List.subset_append_left _ _
  ⟨h.order.mono hsub, h.received_snoc hlt, h.first_lt, h.seq_lt, h.before,
    fun hs hne k hk => (h.slots hs hne k hk).mono hsub, h.expected⟩

/-- A payload handed out behind all others. -/
theorem HandedInOrder.snoc {x : Nat × List UInt8} (h : HandedInOrder received handed)
    (hlt : ∀ y ∈ handed, y.1 < x.1) (hx : ∃ f ∈ received, f.sequence = x.1 ∧ f.data = x.2) :
    HandedInOrder received (handed ++ [x]) := by
  refine ⟨?_, fun y hy => ?_⟩
  · refine List.pairwise_append.mpr ⟨h.increasing, List.pairwise_singleton _ _, fun y hy z hz => ?_⟩
    rw [List.mem_singleton.mp hz]
    exact hlt y hy
  · obtain hy | hy := List.mem_append.mp hy
    · exact h.genuine y hy
    · rw [List.mem_singleton.mp hy]
      exact hx

/-- The slot behind the first one becomes the first one. -/
theorem RtpBuffer.slot_succ {c : RtpBuffer} (hfirst : c.first = b.slot (j + 1)) (k : Nat) :
    c.slot k = b.slot (j + 1 + k) := by
  rw [slot, hfirst, slot, slot, Nat.mod_add_mod, Nat.add_assoc]

/-- After the packet of slot `j` is handed out, and those before it are lost, the slots behind
it are as they were. -/
theorem RtpBuffer.SlotSound.pass {c : RtpBuffer} (hj : j < maxRtpPacketsIn)
    (hsound : ∀ k < maxRtpPacketsIn, b.SlotSound received k)
    (hempty : ∀ k < j, b.len (b.slot k) = 0) (hfirst : c.first = b.slot (j + 1))
    (hlen : c.len = Function.update b.len (b.slot j) 0) (hdata : c.data = b.data)
    (hseq : c.seq = Function.update b.seq (b.slot (j + 1)) (b.seq b.first + j + 1)) :
    ∀ k < maxRtpPacketsIn, c.SlotSound received k := by
  intro k hk
  have hslot := RtpBuffer.slot_succ hfirst k
  have hnext : c.seq c.first = b.seq b.first + j + 1 := by
    rw [hseq, hfirst, Function.update_self]
  by_cases hin : j + 1 + k < maxRtpPacketsIn
  · intro hne
    have hother : b.slot (j + 1 + k) ≠ b.slot j := fun heq => by
      have := RtpBuffer.slot_inj hin hj heq
      omega
    rw [hslot, hlen, Function.update_of_ne hother] at hne
    obtain ⟨hs, f, hf, hfs, hfd⟩ := hsound _ hin hne
    refine ⟨?_, f, hf, ?_, ?_⟩
    · rw [hslot, hnext, hseq]
      by_cases hsame : b.slot (j + 1 + k) = b.slot (j + 1)
      · rw [hsame, Function.update_self]
        have := RtpBuffer.slot_inj hin (by omega) hsame
        omega
      · rw [Function.update_of_ne hsame, hs]
        omega
    · rw [hnext, hfs]
      omega
    · rw [hslot, hdata, hlen, Function.update_of_ne hother]
      exact hfd
  · intro hne
    refine absurd ?_ hne
    have hwrap : b.slot (j + 1 + k) = b.slot (j + 1 + k - maxRtpPacketsIn) := by
      rw [slot, slot, maxRtpPacketsIn]
      rw [maxRtpPacketsIn] at hin
      omega
    rw [hslot, hlen, hwrap]
    by_cases hlast : j + 1 + k - maxRtpPacketsIn = j
    · rw [hlast, Function.update_self]
    · have hlt : j + 1 + k - maxRtpPacketsIn < j := by omega
      have hother : b.slot (j + 1 + k - maxRtpPacketsIn) ≠ b.slot j := fun heq =>
        hlast (RtpBuffer.slot_inj (by omega) hj heq)
      rw [Function.update_of_ne hother]
      exact hempty _ hlt

theorem RtpBuffer.slot_zero (h : b.first < maxRtpPacketsIn) : b.slot 0 = b.first :=
  Nat.mod_eq_of_lt h

theorem RtpBuffer.slot_lt (b : RtpBuffer) (k : Nat) : b.slot k < maxRtpPacketsIn :=
  Nat.mod_lt _ maxRtpPacketsIn_pos

theorem rtpNextSeq_of_ne {seq : Nat} (hlt : seq < 65536) (hne : rtpNextSeq seq ≠ 0) :
    rtpNextSeq seq = seq + 1 := by
  rw [rtpNextSeq] at hne ⊢
  omega

theorem getrtp2_sequence_lt (datagram : List UInt8) : (getrtp2 datagram).sequence < 65536 := by
  rw [getrtp2]
  split
  · decide
  · have h2 := ((datagram.take rtpRecvSize).getD 2 0).toNat_lt
    have h3 := ((datagram.take rtpRecvSize).getD 3 0).toNat_lt
    simp only []
    omega

/-- A packet is handed out on arrival. -/
theorem RtpInOrder.feed (h : RtpInOrder b received handed) (hlen : b.len b.first = 0)
    (hturn : b.InTurn) (hlt : f.sequence < 65536)
    (hseq : b.isFirst = true ∨ f.sequence = b.seq b.first) :
    RtpInOrder (rtpPass f b) (received ++ [f]) (handed ++ [(f.sequence, f.data)]) := by
  have hmem : f ∈ received ++ [f] := List.mem_append_right _ (List.mem_singleton_self f)
  have hsub : received ⊆ received ++ [f] := List.subset_append_left _ _
  have hslot : (1 + b.first) % maxRtpPacketsIn = b.slot (0 + 1) := by
    rw [RtpBuffer.slot, Nat.zero_add, Nat.add_comm]
  have hbelow : ∀ y ∈ handed, y.1 < f.sequence := by
    cases hfirst : b.isFirst with
    | true =>
      intro y hy
      rw [(h.before hfirst).1] at hy
      exact absurd hy List.not_mem_nil
    | false =>
      rw [hseq.resolve_left (by rw [hfirst]; decide)]
      exact h.expected hfirst (hturn hfirst)
  have hnext : (rtpPass f b).seq (rtpPass f b).first ≠ 0 →
      (rtpPass f b).seq (rtpPass f b).first = f.sequence + 1 := by
    rw [rtpPass_next]
    exact rtpNextSeq_of_ne hlt
  have hbound : (rtpPass f b).seq (rtpPass f b).first < 65536 := by
    rw [rtpPass_next]
    exact Nat.mod_lt _ (by decide)
  refine ⟨(h.order.mono hsub).snoc hbelow ⟨f, hmem, rfl, rfl⟩, h.received_snoc hlt,
    Nat.mod_lt _ maxRtpPacketsIn_pos, hbound, fun htrue => Bool.noConfusion htrue,
    fun _ hne => ?_, fun _ hne => ?_⟩
  · cases hfirst : b.isFirst with
    | true =>
      intro k _ hnot
      exact absurd ((h.before hfirst).2 _ (Nat.mod_lt _ maxRtpPacketsIn_pos)) hnot
    | false =>
      have heq : f.sequence = b.seq b.first := hseq.resolve_left (by rw [hfirst]; decide)
      have hseq' : rtpNextSeq f.sequence = b.seq b.first + 0 + 1 := by
        rw [← rtpPass_next, hnext hne, heq]
      refine RtpBuffer.SlotSound.pass (b := b) (j := 0) maxRtpPacketsIn_pos
        (fun k hk => (h.slots hfirst (hturn hfirst) k hk).mono hsub)
        (fun k hk => absurd hk (Nat.not_lt_zero k)) hslot ?_ rfl ?_
      · rw [RtpBuffer.slot_zero h.first_lt]
        exact (Function.update_eq_self_iff.mpr hlen.symm).symm
      · rw [← hseq', ← hslot]
        rfl
  · rw [hnext hne]
    intro y hy
    obtain hy | hy := List.mem_append.mp hy
    · exact Nat.lt_succ_of_lt (hbelow y hy)
    · rw [List.mem_singleton.mp hy]
      exact Nat.lt_succ_self _

/-- A packet is put into its slot, or into the first one if nothing else waits. -/
theorem RtpInOrder.store (h : RtpInOrder b received handed) (hstarted : b.isFirst = false)
    (hturn : b.InTurn) (hleaves : b.Leaves f) (hbound : f.sequence < 65536) (hk : 0 < k)
    (hle : k ≤ maxRtpPacketsIn) (hseq : f.sequence = b.seq b.first + k)
    (hlength : f.data.length = f.lengthData.toNat) :
    RtpInOrder (rtpStore f ((k + b.first) % maxRtpPacketsIn) b) (received ++ [f]) handed := by
  have hmem : f ∈ received ++ [f] := List.mem_append_right _ (List.mem_singleton_self f)
  have hsub : received ⊆ received ++ [f] := List.subset_append_left _ _
  have hdata : f.data = f.data.take f.lengthData.toNat := by rw [← hlength, List.take_length]
  have hexpected := h.expected hstarted (hturn hstarted)
  obtain rfl | hlt := Nat.eq_or_lt_of_le hle
  · have hslot : (maxRtpPacketsIn + b.first) % maxRtpPacketsIn = b.first := by
      rw [Nat.add_mod_left, Nat.mod_eq_of_lt h.first_lt]
    rw [hslot]
    have hsame : (rtpStore f b.first b).seq (rtpStore f b.first b).first = f.sequence :=
      Function.update_self ..
    refine ⟨h.order.mono hsub, h.received_snoc hbound, h.first_lt, hsame ▸ hbound,
      fun hfirst => absurd (hstarted.symm.trans hfirst) (by decide), fun _ _ j hj => ?_,
      fun _ _ x hx => ?_⟩
    · intro hne
      have hsame : b.slot j = b.first := by
        refine Decidable.byContradiction fun hother => hne ?_
        simp only [rtpStore, RtpBuffer.slot] at hother ⊢
        rw [Function.update_of_ne hother]
        exact hleaves hseq _ (RtpBuffer.slot_lt b j)
      have hj0 : j = 0 := RtpBuffer.slot_inj hj maxRtpPacketsIn_pos
        (hsame.trans (RtpBuffer.slot_zero h.first_lt).symm)
      subst hj0
      simp only [RtpBuffer.slot, rtpStore, Nat.add_zero, Nat.mod_eq_of_lt h.first_lt,
        Function.update_self]
      exact ⟨trivial, f, hmem, rfl, hdata⟩
    · have hx' := hexpected x hx
      simp only [rtpStore, Function.update_self]
      omega
  · have hslot : (k + b.first) % maxRtpPacketsIn = b.slot k := by rw [RtpBuffer.slot, Nat.add_comm]
    have hother : b.first ≠ b.slot k := fun heq => by
      have :=
        RtpBuffer.slot_inj maxRtpPacketsIn_pos hlt ((RtpBuffer.slot_zero h.first_lt).trans heq)
      omega
    rw [hslot]
    have hsame : (rtpStore f (b.slot k) b).seq b.first = b.seq b.first :=
      Function.update_of_ne hother ..
    refine ⟨h.order.mono hsub, h.received_snoc hbound, h.first_lt, ?_,
      fun hfirst => absurd (hstarted.symm.trans hfirst) (by decide), fun _ _ j hj => ?_,
      fun _ _ => ?_⟩
    · have hfirst : (rtpStore f (b.slot k) b).first = b.first := rfl
      rw [hfirst, hsame]
      exact h.seq_lt
    · intro hne
      show Function.update b.seq (b.slot k) f.sequence (b.slot j) =
          (rtpStore f (b.slot k) b).seq b.first + j ∧ ∃ g ∈ received ++ [f],
          g.sequence = (rtpStore f (b.slot k) b).seq b.first + j ∧
            g.data = (Function.update b.data (b.slot k) f.data (b.slot j)).take
              (Function.update b.len (b.slot k) f.lengthData.toNat (b.slot j))
      rw [hsame]
      by_cases hjk : b.slot j = b.slot k
      · have heq := RtpBuffer.slot_inj hj hlt hjk
        subst heq
        rw [Function.update_self, Function.update_self, Function.update_self]
        exact ⟨hseq, f, hmem, hseq, hdata⟩
      · have hne' : b.len (b.slot j) ≠ 0 := by
          have heq : (rtpStore f (b.slot k) b).len (b.slot j) = b.len (b.slot j) :=
            Function.update_of_ne hjk ..
          rw [← heq]
          exact hne
        rw [Function.update_of_ne hjk, Function.update_of_ne hjk, Function.update_of_ne hjk]
        obtain ⟨hs, g, hg, hgs, hgd⟩ := h.slots hstarted (hturn hstarted) j hj hne'
        exact ⟨hs, g, hsub hg, hgs, hgd⟩
    · have hfirst : (rtpStore f (b.slot k) b).first = b.first := rfl
      rw [hfirst, hsame]
      exact hexpected

/-! ## The cache is asked -/

/-- The loop over lost packets stops at the first packet, or is back where it began. -/
theorem rtpSkipLost_slot (hfirst : b.first < maxRtpPacketsIn) : ∀ (n m : Nat),
    n + m = maxRtpPacketsIn → (∀ k < m, b.len (b.slot k) = 0) →
    ∃ j < maxRtpPacketsIn, rtpSkipLost b n (b.slot m) = b.slot j ∧ (∀ k < j, b.len (b.slot k) = 0) ∧
      (b.len (b.slot j) ≠ 0 ∨ j = 0 ∧ ∀ k < maxRtpPacketsIn, b.len (b.slot k) = 0)
  | 0, m, hm, hlost => by
    rw [Nat.zero_add] at hm
    refine ⟨0, maxRtpPacketsIn_pos, ?_, fun k hk => absurd hk (Nat.not_lt_zero k),
      Or.inr ⟨rfl, hm ▸ hlost⟩⟩
    rw [rtpSkipLost, hm, RtpBuffer.slot, Nat.add_mod_right]
    rfl
  | n + 1, m, hm, hlost => by
    have hlt : m < maxRtpPacketsIn := by omega
    rw [rtpSkipLost]
    by_cases hlen : b.len (b.slot m) = 0
    · have hnext : (1 + b.slot m) % maxRtpPacketsIn = b.slot (m + 1) := by
        rw [RtpBuffer.slot, RtpBuffer.slot, Nat.add_mod_mod]
        congr 1
        omega
      have hlost' : ∀ k < m + 1, b.len (b.slot k) = 0 := by
        intro k hk
        obtain hk | rfl := Nat.lt_succ_iff_lt_or_eq.mp hk
        · exact hlost k hk
        · exact hlen
      rw [if_pos hlen, hnext]
      simp only []
      by_cases hback : b.first = b.slot (m + 1)
      · rw [if_pos hback]
        by_cases hin : m + 1 < maxRtpPacketsIn
        · have heq := RtpBuffer.slot_inj maxRtpPacketsIn_pos hin
            ((RtpBuffer.slot_zero hfirst).trans hback)
          omega
        · refine ⟨0, maxRtpPacketsIn_pos, ?_, fun k hk => absurd hk (Nat.not_lt_zero k),
            Or.inr ⟨rfl, fun k hk => hlost' k (by omega)⟩⟩
          rw [← hback, RtpBuffer.slot_zero hfirst]
      · rw [if_neg hback]
        exact rtpSkipLost_slot hfirst n (m + 1) (by omega) hlost'
    · rw [if_neg hlen]
      exact ⟨m, hlt, rfl, hlost, Or.inl hlen⟩

theorem rtpSkipLost_first (hfirst : b.first < maxRtpPacketsIn) :
    ∃ j < maxRtpPacketsIn, rtpSkipLost b maxRtpPacketsIn b.first = b.slot j ∧
      (∀ k < j, b.len (b.slot k) = 0) ∧
      (b.len (b.slot j) ≠ 0 ∨ j = 0 ∧ ∀ k < maxRtpPacketsIn, b.len (b.slot k) = 0) := by
  have h := rtpSkipLost_slot hfirst maxRtpPacketsIn 0 rfl fun k hk => absurd hk (Nat.not_lt_zero k)
  rwa [RtpBuffer.slot_zero hfirst] at h

/-- A cache that is empty stays so. -/
theorem rtpGetCached_empty (h : ∀ i < maxRtpPacketsIn, b.len i = 0)
    (hfirst : b.first < maxRtpPacketsIn) :
    (rtpGetCached b).1 = [] ∧ ∀ i < maxRtpPacketsIn, (rtpGetCached b).2.len i = 0 := by
  have hi := rtpSkipLost_lt b maxRtpPacketsIn b.first hfirst
  refine ⟨?_, fun i hlt => ?_⟩
  · rw [rtpGetCached, h _ hi, List.take_zero]
  · simp only [rtpGetCached]
    by_cases hslot : i = rtpSkipLost b maxRtpPacketsIn b.first
    · rw [hslot, Function.update_self]
    · rw [Function.update_of_ne hslot, h i hlt]

/-- The next packet is taken from the cache. -/
theorem RtpInOrder.getCached (h : RtpInOrder b received handed) (hturn : b.InTurn) :
    RtpInOrder (rtpGetCached b).2 received (handed ++ handedBy [rtpCachedTurn b]) := by
  have hhanded : handedBy [rtpCachedTurn b] = if (rtpGetCached b).1 = [] then []
      else [(b.seq (rtpSkipLost b maxRtpPacketsIn b.first), (rtpGetCached b).1)] := by
    by_cases hnil : (rtpGetCached b).1 = []
    · simp only [handedBy, rtpCachedTurn, List.filterMap_cons, RtpEvent.handed, if_pos hnil]
      rfl
    · simp only [handedBy, rtpCachedTurn, List.filterMap_cons, RtpEvent.handed, if_neg hnil]
      rfl
  obtain ⟨j, hj, hskip, hlost, hend⟩ := rtpSkipLost_first h.first_lt
  have hnext : (rtpGetCached b).2.seq (rtpGetCached b).2.first = rtpNextSeq (b.seq (b.slot j)) := by
    simp only [rtpGetCached, hskip, Function.update_self]
  have hbound : (rtpGetCached b).2.seq (rtpGetCached b).2.first < 65536 := by
    rw [hnext]
    exact Nat.mod_lt _ (by decide)
  cases hstarted : b.isFirst with
  | true =>
    obtain ⟨hnone, hlen⟩ := h.before hstarted
    obtain ⟨hout, hlen'⟩ := rtpGetCached_empty hlen h.first_lt
    rw [hhanded, if_pos hout, List.append_nil]
    refine ⟨h.order, h.received_lt, Nat.mod_lt _ maxRtpPacketsIn_pos, hbound,
      fun _ => ⟨hnone, hlen'⟩, fun hfirst => ?_, fun hfirst => ?_⟩
    · exact absurd (hstarted.symm.trans hfirst) (by decide)
    · exact absurd (hstarted.symm.trans hfirst) (by decide)
  | false =>
    have hslots := h.slots hstarted (hturn hstarted)
    have hexpected := h.expected hstarted (hturn hstarted)
    have hfirst : (rtpGetCached b).2.first = b.slot (j + 1) := by
      simp only [rtpGetCached, hskip, RtpBuffer.slot, Nat.add_mod_mod]
      congr 1
      omega
    -- the slot that is taken has its own number, also when all are empty
    have hseq : b.seq (b.slot j) = b.seq b.first + j ∧ b.seq b.first + j < 65536 := by
      obtain hfull | ⟨rfl, -⟩ := hend
      · obtain ⟨hs, f, hf, hfs, -⟩ := hslots j hj hfull
        exact ⟨hs, hfs ▸ h.received_lt f hf⟩
      · rw [RtpBuffer.slot_zero h.first_lt]
        exact ⟨rfl, h.seq_lt⟩
    have hnumber : (rtpGetCached b).2.seq (rtpGetCached b).2.first ≠ 0 →
        (rtpGetCached b).2.seq (rtpGetCached b).2.first = b.seq b.first + j + 1 := by
      rw [hnext, hseq.1]
      exact rtpNextSeq_of_ne hseq.2
    have horder : HandedInOrder received (handed ++ handedBy [rtpCachedTurn b]) := by
      rw [hhanded]
      split
      case isTrue =>
        rw [List.append_nil]
        exact h.order
      case isFalse hout =>
        refine h.order.snoc (fun y hy => ?_) ?_
        · rw [hskip, hseq.1]
          exact Nat.lt_of_lt_of_le (hexpected y hy) (Nat.le_add_right _ _)
        · have hfull : b.len (b.slot j) ≠ 0 := by
            intro hzero
            refine hout ?_
            rw [rtpGetCached, hskip, hzero, List.take_zero]
          obtain ⟨hs, f, hf, hfs, hfd⟩ := hslots j hj hfull
          refine ⟨f, hf, ?_, ?_⟩
          · rw [hskip, hs, hfs]
          · rw [rtpGetCached, hskip]
            exact hfd
    refine ⟨horder, h.received_lt, Nat.mod_lt _ maxRtpPacketsIn_pos, hbound,
      fun hfirst => absurd (hstarted.symm.trans hfirst) (by decide), fun _ hne => ?_,
      fun _ hne => ?_⟩
    · refine RtpBuffer.SlotSound.pass hj hslots hlost hfirst ?_ rfl ?_
      · simp only [rtpGetCached, hskip]
      · rw [← hnumber hne, hnext, ← hfirst]
        simp only [rtpGetCached, hskip]
    · rw [hnumber hne, hhanded]
      intro y hy
      obtain hy | hy := List.mem_append.mp hy
      · have := hexpected y hy
        omega
      · split at hy
        · exact absurd hy List.not_mem_nil
        · rw [List.mem_singleton.mp hy, hskip, hseq.1]
          exact Nat.lt_succ_self _

/-! ## Every run -/

/-- A turn as the numbers do not wrap: the number expected has not wrapped, and a packet is at
most 32 ahead of it. -/
def RtpTurn.InTurn (t : RtpTurn) : Prop :=
  t.before.InTurn ∧ ∀ f ∈ t.event.received, t.before.isFirst = false →
    f.sequence ≤ t.before.seq t.before.first + maxRtpPacketsIn

/-- No packet with a payload comes exactly 32 ahead while another one waits, or restarts the
cache. -/
def RtpTurn.KeepsOrder (t : RtpTurn) : Prop :=
  ∀ f ∈ t.event.received, f.lengthData ≠ 0 → t.before.isFirst = false →
    t.before.Leaves f ∧ ¬ t.before.Restarts f

theorem RtpInOrder.arrive {datagram out : List UInt8} (h : RtpInOrder b received handed)
    (hlen : b.len b.first = 0) (hturn : b.InTurn)
    (hkeeps : (getrtp2 datagram).lengthData ≠ 0 → b.isFirst = false →
      b.Leaves (getrtp2 datagram) ∧ ¬ b.Restarts (getrtp2 datagram))
    (hcache : rtpCache datagram b = some (out, b')) :
    RtpInOrder b' (received ++ [getrtp2 datagram])
      (handed ++ if out = [] then []
        else [((getrtp2 datagram).sequence, (getrtp2 datagram).data)]) := by
  have hlt := getrtp2_sequence_lt datagram
  cases rtpCache_kept (fun hne hs => (hkeeps hne hs).2) hcache with
  | dropped =>
    rw [if_pos rfl, List.append_nil]
    exact h.drop hlt
  | fed hout hseq =>
    rw [if_neg hout]
    exact h.feed hlen hturn hlt hseq
  | stored hne hstarted hk hle hseq hlength =>
    rw [if_pos rfl, List.append_nil]
    exact h.store hstarted hturn (hkeeps hne hstarted).1 hlt hk hle hseq hlength

theorem RtpInOrder.fill : ∀ (n : Nat) {socket socket' : List (List UInt8)} {b b' : RtpBuffer}
    {turns : List RtpTurn} {received : List RtpFrame} {handed : List (Nat × List UInt8)},
    RtpInOrder b received handed → rtpFillTurns n socket b = some (turns, b', socket') →
    (∀ t ∈ turns, t.InTurn ∧ t.KeepsOrder) →
    RtpInOrder b' (received ++ receivedBy turns) (handed ++ handedBy turns)
  | 0, socket, socket', b, b', turns, received, handed, h, hfill, hturns => by
    cases hfill
    rw [show receivedBy [rtpCachedTurn b] = [] from rfl, List.append_nil]
    exact h.getCached (hturns _ (List.mem_singleton_self _)).1.1
  | n + 1, socket, socket', b, b', turns, received, handed, h, hfill, hturns => by
    rw [rtpFillTurns.eq_def] at hfill
    by_cases hlen : b.len b.first ≠ 0
    · simp only [if_pos hlen] at hfill
      cases hfill
      rw [show receivedBy [rtpCachedTurn b] = [] from rfl, List.append_nil]
      exact h.getCached (hturns _ (List.mem_singleton_self _)).1.1
    · simp only [if_neg hlen] at hfill
      rw [Decidable.not_not] at hlen
      cases socket with
      | nil => cases hfill
      | cons datagram socket =>
        simp only [] at hfill
        obtain ⟨⟨out, b₁⟩, hcache, hnext⟩ := Option.bind_eq_some_iff.mp hfill
        simp only [] at hnext
        by_cases hout : out ≠ []
        · rw [if_pos hout] at hnext
          cases hnext
          obtain ⟨hin, hkeeps⟩ := hturns _ (List.mem_singleton_self _)
          have hstep := h.arrive hlen hin.1 (hkeeps _ rfl) hcache
          rw [if_neg hout] at hstep
          exact hstep
        · rw [if_neg hout] at hnext
          obtain ⟨⟨turns₁, b₂, socket₂⟩, hrest, heq⟩ := Option.map_eq_some_iff.mp hnext
          cases heq
          obtain ⟨hin, hkeeps⟩ := hturns _ List.mem_cons_self
          have hstep := h.arrive hlen hin.1 (hkeeps _ rfl) hcache
          rw [Decidable.not_not] at hout
          rw [if_pos hout, List.append_nil] at hstep
          have hrun := RtpInOrder.fill n hstep hrest
            fun t ht => hturns t (List.mem_cons_of_mem _ ht)
          rw [List.append_assoc] at hrun
          exact hrun

theorem RtpInOrder.calls : ∀ (c : Nat) {socket socket' : List (List UInt8)} {b b' : RtpBuffer}
    {turns : List RtpTurn} {received : List RtpFrame} {handed : List (Nat × List UInt8)},
    RtpInOrder b received handed → rtpCalls c socket b = some (turns, b', socket') →
    (∀ t ∈ turns, t.InTurn ∧ t.KeepsOrder) →
    RtpInOrder b' (received ++ receivedBy turns) (handed ++ handedBy turns)
  | 0, socket, socket', b, b', turns, received, handed, h, hcalls, hturns => by
    cases hcalls
    rw [show receivedBy [] = [] from rfl, show handedBy [] = [] from rfl, List.append_nil,
      List.append_nil]
    exact h
  | c + 1, socket, socket', b, b', turns, received, handed, h, hcalls, hturns => by
    rw [rtpCalls] at hcalls
    obtain ⟨⟨turns₁, b₁, socket₁⟩, hfill, hnext⟩ := Option.bind_eq_some_iff.mp hcalls
    obtain ⟨⟨turns₂, b₂, socket₂⟩, hrest, heq⟩ := Option.map_eq_some_iff.mp hnext
    cases heq
    have hfirst := h.fill _ hfill fun t ht => hturns t (List.mem_append_left _ ht)
    have hrun := RtpInOrder.calls c hfirst hrest fun t ht => hturns t (List.mem_append_right _ ht)
    rw [receivedBy_append, handedBy_append, ← List.append_assoc, ← List.append_assoc]
    exact hrun

/-- In every run in which no packet comes exactly 32 ahead while another one waits, and none
restarts the cache, the payloads are handed out in increasing order, each as received with its
number. -/
theorem rtp_handed_in_order {c : Nat} {socket socket' : List (List UInt8)} {turns : List RtpTurn}
    {b : RtpBuffer} (hcalls : rtpCalls c socket rtpbufStart = some (turns, b, socket'))
    (hin : ∀ t ∈ turns, t.InTurn) (hkeeps : ∀ t ∈ turns, t.KeepsOrder) :
    HandedInOrder (receivedBy turns) (handedBy turns) := by
  have h := rtpbufStart_inOrder.calls c hcalls fun t ht => ⟨hin t ht, hkeeps t ht⟩
  exact h.order

/-- A packet with the payload `p`. -/
def rtpBytePacket (seq : Nat) (p : UInt8) : List UInt8 :=
  ((byteStream seq).header 0).bytes seq ++ [p]

instance (b : RtpBuffer) : Decidable b.InTurn := inferInstanceAs (Decidable (_ → _))

instance (t : RtpTurn) : Decidable t.InTurn := inferInstanceAs (Decidable (_ ∧ _))

instance (b : RtpBuffer) (f : RtpFrame) : Decidable (b.Leaves f) :=
  inferInstanceAs (Decidable (_ → _))

instance (b : RtpBuffer) (f : RtpFrame) : Decidable (b.Restarts f) :=
  inferInstanceAs (Decidable (_ ∨ _))

instance (t : RtpTurn) : Decidable t.KeepsOrder :=
  inferInstanceAs (Decidable (∀ f ∈ t.event.received, _ → _ → _))

/-- Packet 101 comes behind 102, which comes twice. -/
theorem rtp_handed_in_order_late : ∃ turns b socket',
    rtpCalls 3 [rtpBytePacket 100 1, rtpBytePacket 102 3, rtpBytePacket 102 3, rtpBytePacket 101 2]
      rtpbufStart = some (turns, b, socket') ∧
      handedBy turns = [(100, [1]), (101, [2]), (102, [3])] ∧
      HandedInOrder (receivedBy turns) (handedBy turns) := by
  have hrun : (rtpCalls 3 [rtpBytePacket 100 1, rtpBytePacket 102 3, rtpBytePacket 102 3,
      rtpBytePacket 101 2] rtpbufStart).map (fun r => (handedBy r.1,
        r.1.all fun t => decide (t.InTurn ∧ t.KeepsOrder))) =
      some ([(100, [1]), (101, [2]), (102, [3])], true) := by decide
  obtain ⟨⟨turns, b, socket'⟩, hcalls, heq⟩ := Option.map_eq_some_iff.mp hrun
  obtain ⟨hhanded, hall⟩ := Prod.mk.inj heq
  have hturns : ∀ t ∈ turns, t.InTurn ∧ t.KeepsOrder :=
    fun t ht => of_decide_eq_true (List.all_eq_true.mp hall t ht)
  exact ⟨turns, b, socket', hcalls, hhanded,
    rtp_handed_in_order hcalls (fun t ht => (hturns t ht).1) fun t ht => (hturns t ht).2⟩

/-- Packet 133 comes when 101 is expected and 102 waits: the payload of 102 is handed out last,
with the number 134. -/
theorem rtp_full_lead_out_of_order :
    ¬ ∀ (c : Nat) (socket socket' : List (List UInt8)) (turns : List RtpTurn) (b : RtpBuffer),
      rtpCalls c socket rtpbufStart = some (turns, b, socket') → (∀ t ∈ turns, t.InTurn) →
        HandedInOrder (receivedBy turns) (handedBy turns) := by
  intro h
  have hrun : (rtpCalls 3 [rtpBytePacket 100 1, rtpBytePacket 102 3, rtpBytePacket 133 4]
      rtpbufStart).map (fun r => (handedBy r.1, (receivedBy r.1).map fun f => f.sequence,
        r.1.all fun t => decide t.InTurn)) =
      some ([(100, [1]), (133, [4]), (134, [3])], [100, 102, 133], true) := by decide
  obtain ⟨⟨turns, b, socket'⟩, hcalls, heq⟩ := Option.map_eq_some_iff.mp hrun
  obtain ⟨hhanded, hmore⟩ := Prod.mk.inj heq
  obtain ⟨hreceived, hall⟩ := Prod.mk.inj hmore
  have horder := h _ _ _ _ _ hcalls fun t ht => of_decide_eq_true (List.all_eq_true.mp hall t ht)
  have hlast : ((134, [3]) : Nat × List UInt8) ∈ handedBy turns := by
    simp only [hhanded]
    decide
  obtain ⟨f, hf, hseq, -⟩ := horder.genuine _ hlast
  have hmem : f.sequence ∈ (receivedBy turns).map fun f => f.sequence := List.mem_map_of_mem hf
  simp only [hreceived, hseq] at hmem
  exact absurd hmem (by decide)

end MPlayer
