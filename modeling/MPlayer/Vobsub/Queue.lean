import Mathlib.Algebra.Group.Nat.Defs
import Mathlib.Data.List.Sort

/-!
# The queue of VobSub packets

The packets of the stream that `vobsub_id` selects, and the index of the next one.  Every call of
`vobsub_get_packet` first moves the index to the packets that are due, those of the latest time
that has come.

Times are in units of 1/90000 s, as they are converted before the queue is looked at.  A read
outside the queue ends in `none`.
-/

namespace MPlayer

/-- `packet_t`. -/
structure VobPacket where
  pts100 : Nat
  data : List UInt8
deriving DecidableEq

/-- `packet_queue_t`. -/
structure PacketQueue where
  id : Option String
  packets : List VobPacket
  currentIndex : Nat

/-- `UINT_MAX`, the time of a packet that has none. -/
def noPts : Nat := 2 ^ 32 - 1

/-! ## The calls -/

variable (packets : List VobPacket)

/-- The first loop of `vobsub_queue_reseek`, which looks for a packet with a time among the first
ones, from the last of them on.  How many are left then, with that packet. -/
def lookBack : Nat → Option Nat
  | 0 => some 0
  | k + 1 => do
    let p ← packets[k]?
    if p.pts100 = noPts then lookBack k else some (k + 1)

/-- The loop over the packets that are due: the index, `lastpts` and `reseek_count`. -/
def reseekForward (pts100 : Nat) : Nat → Nat → Nat → Nat → Nat × Nat × Nat
  | 0, current, lastpts, count => (current, lastpts, count)
  | left + 1, current, lastpts, count =>
    match packets[current]? with
    | some p =>
      if p.pts100 ≤ pts100 then reseekForward pts100 left (current + 1) p.pts100 (count + 1)
      else (current, lastpts, count)
    | none => (current, lastpts, count)

/-- The loop back to the first packet of the same time. -/
def reseekBack (lastpts : Nat) : Nat → Nat → Option Nat
  | 0, current => some current
  | _ + 1, 0 => none
  | _ + 1, 1 => some 0
  | count + 1, current + 2 => do
    let p ← packets[current]?
    if p.pts100 ≠ noPts ∧ p.pts100 ≠ lastpts then some (current + 1)
    else reseekBack lastpts count (current + 1)

variable {packets}

/-- The first part of `vobsub_queue_reseek`: where the index is then, at the beginning after a seek
back. -/
def seekBack (q : PacketQueue) (pts100 : Nat) : Option Nat :=
  if 0 < q.currentIndex then do
    let p ← q.packets[q.currentIndex]?
    if p.pts100 = noPts ∨ pts100 < p.pts100 then do
      let k ← lookBack q.packets q.currentIndex
      if 0 < k then do
        let p ← q.packets[k - 1]?
        some (if pts100 < p.pts100 then 0 else q.currentIndex)
      else some q.currentIndex
    else some q.currentIndex
  else some 0

/-- `vobsub_queue_reseek`. -/
def vobsubQueueReseek (q : PacketQueue) (pts100 : Nat) : Option PacketQueue := do
  let current ← seekBack q pts100
  let (current, lastpts, count) :=
    reseekForward q.packets pts100 (q.packets.length - current) current 0 0
  let current ← reseekBack q.packets lastpts count current
  some { q with currentIndex := current }

/-- The loop of `vobsub_get_packet`. -/
def getDue (q : PacketQueue) (pts100 : Nat) : Nat → Nat → PacketQueue × Option VobPacket
  | 0, current => ({ q with currentIndex := current }, none)
  | left + 1, current =>
    match q.packets[current]? with
    | some p =>
      if p.pts100 ≠ noPts then
        if p.pts100 ≤ pts100 then ({ q with currentIndex := current + 1 }, some p)
        else ({ q with currentIndex := current }, none)
      else getDue q pts100 left (current + 1)
    | none => ({ q with currentIndex := current }, none)

/-- `vobsub_get_packet`. -/
def vobsubGetPacket (q : PacketQueue) (pts100 : Nat) : Option (PacketQueue × Option VobPacket) := do
  let q ← vobsubQueueReseek q pts100
  some (getDue q pts100 (q.packets.length - q.currentIndex) q.currentIndex)

/-- `vobsub_get_next_packet`. -/
def vobsubGetNextPacket (q : PacketQueue) : PacketQueue × Option VobPacket :=
  match q.packets[q.currentIndex]? with
  | some p => ({ q with currentIndex := q.currentIndex + 1 }, some p)
  | none => (q, none)

/-- `vobsub_seek`. -/
def vobsubSeek (q : PacketQueue) (pts100 : Nat) : Option PacketQueue :=
  if q.id = none then some q
  else vobsubQueueReseek { q with currentIndex := 0 } pts100

/-- `vobsub_reset`. -/
def vobsubReset (q : PacketQueue) : PacketQueue := { q with currentIndex := 0 }

inductive QueueOp where
  | get (pts100 : Nat)
  | next
  | seek (pts100 : Nat)
  | reset

/-- The queue after a call, and the packet that it returns. -/
def queueStep (q : PacketQueue) : QueueOp → Option (PacketQueue × Option VobPacket)
  | .get pts100 => vobsubGetPacket q pts100
  | .next => some (vobsubGetNextPacket q)
  | .seek pts100 => (vobsubSeek q pts100).map (·, none)
  | .reset => some (vobsubReset q, none)

/-- The packets that a run returns. -/
def queueRun (q : PacketQueue) : List QueueOp → Option (List (Option VobPacket))
  | [] => some []
  | op :: ops => do
    let (q, out) ← queueStep q op
    let outs ← queueRun q ops
    some (out :: outs)

/-! ## Lists in order -/

section Sorted

variable {α : Type} {p : α → Bool} {l : List α}

/-- What has the property comes first. -/
theorem filter_append_filter_not (h : l.Pairwise fun a b => p b → p a) :
    l.filter p ++ l.filter (!p ·) = l := by
  induction l with
  | nil => rfl
  | cons b l ih =>
    obtain ⟨hb, hl⟩ := List.pairwise_cons.1 h
    by_cases hp : p b
    · rw [List.filter_cons_of_pos hp, List.filter_cons_of_neg (by simp [hp]), List.cons_append,
        ih hl]
    · have hnone : l.filter p = [] := List.filter_eq_nil_iff.2 fun a ha hpa => hp (hb a ha hpa)
      have hrest := ih hl
      rw [hnone, List.nil_append] at hrest
      rw [List.filter_cons_of_neg hp, hnone, List.filter_cons_of_pos (by simp [hp]),
        List.nil_append, hrest]

theorem filter_lt_iff (h : l.Pairwise fun a b => p b → p a) {i : Nat} {a : α}
    (ha : l[i]? = some a) : p a ↔ i < (l.filter p).length := by
  rw [← filter_append_filter_not h, List.getElem?_append] at ha
  split at ha
  · next hi => exact ⟨fun _ => hi, fun _ => (List.mem_filter.1 (List.mem_of_getElem? ha)).2⟩
  · next hi =>
    have hno := (List.mem_filter.1 (List.mem_of_getElem? ha)).2
    exact ⟨fun hp => by simp [hp] at hno, fun hlt => absurd hlt hi⟩

theorem exists_getElem? {i : Nat} (h : i < l.length) : ∃ a, l[i]? = some a :=
  ⟨_, List.getElem?_eq_getElem h⟩

end Sorted

/-! ## Packets that are due -/

/-- The packets of the latest time that has come. -/
def duePackets (packets : List VobPacket) (pts100 : Nat) : List VobPacket :=
  match (packets.filter fun p => p.pts100 ≤ pts100).getLast? with
  | none => []
  | some last => packets.filter fun p => p.pts100 = last.pts100

/-- The packets from `s` to `e` are due: those of the latest time that has come. -/
structure Due (packets : List VobPacket) (pts100 s e : Nat) : Prop where
  le : s ≤ e
  length : e ≤ packets.length
  le_iff : ∀ i p, packets[i]? = some p → (p.pts100 ≤ pts100 ↔ i < e)
  same : ∀ i p p', packets[i]? = some p → packets[e - 1]? = some p' → i < e →
    (p.pts100 = p'.pts100 ↔ s ≤ i)
  pos : 0 < e → s < e
  eq : duePackets packets pts100 = (packets.drop s).take (e - s)

/-- Packets with times in order, and each has one. -/
structure InOrder (packets : List VobPacket) : Prop where
  sorted : packets.Pairwise fun p p' => p.pts100 ≤ p'.pts100
  lt : ∀ p ∈ packets, p.pts100 < noPts

/-- A bound on the times holds of the first packets. -/
theorem InOrder.downward {packets : List VobPacket} (h : InOrder packets) (bound : Nat → Prop)
    [DecidablePred bound] (hbound : ∀ a b, a ≤ b → bound b → bound a) :
    packets.Pairwise fun p q => decide (bound q.pts100) → decide (bound p.pts100) :=
  h.sorted.imp fun hle hb => decide_eq_true (hbound _ _ hle (of_decide_eq_true hb))

theorem InOrder.exists_due {packets : List VobPacket} (h : InOrder packets) (pts100 : Nat) :
    ∃ s e, Due packets pts100 s e := by
  have hle : ∀ i p, packets[i]? = some p → (p.pts100 ≤ pts100 ↔
      i < (packets.filter (VobPacket.pts100 · ≤ pts100)).length) := fun i p hp => by
    rw [← filter_lt_iff (h.downward (· ≤ pts100) fun _ _ => Nat.le_trans) hp, decide_eq_true_eq]
  rcases List.eq_nil_or_concat (packets.filter (VobPacket.pts100 · ≤ pts100)) with
    hnil | ⟨front, last, hfilter⟩
  · rw [hnil] at hle
    refine ⟨0, 0, Nat.le_refl 0, Nat.zero_le _, hle, fun i p p' _ _ hi => absurd hi (by omega),
      fun h0 => absurd h0 (by omega), ?_⟩
    unfold duePackets
    rw [hnil]
    rfl
  · rw [List.concat_eq_append] at hfilter
    have hsplit := filter_append_filter_not (h.downward (· ≤ pts100) fun _ _ => Nat.le_trans)
    have hmem : last ∈ packets.filter (VobPacket.pts100 · ≤ pts100) := by simp [hfilter]
    obtain ⟨hin, hlt⟩ := List.mem_filter.1 hmem
    have hlast : packets[front.length]? = some last := by
      rw [← hsplit, hfilter]
      simp
    have hup : ∀ p ∈ packets, (p.pts100 ≤ pts100 ↔ p.pts100 ≤ last.pts100) := by
      refine fun p hp => ⟨fun hle => ?_, fun hle => Nat.le_trans hle (of_decide_eq_true hlt)⟩
      have hsorted := h.sorted.filter (VobPacket.pts100 · ≤ pts100)
      have hpf : p ∈ packets.filter (VobPacket.pts100 · ≤ pts100) := by simp [hp, hle]
      rw [hfilter] at hsorted hpf
      rcases List.mem_append.1 hpf with hpf | hpf
      · exact (List.pairwise_append.1 hsorted).2.2 p hpf last List.mem_cons_self
      · rw [List.mem_singleton.1 hpf]
    -- where the group begins
    have hdown := h.downward (· < last.pts100) fun _ _ => Nat.lt_of_le_of_lt
    have hs : ∀ i p, packets[i]? = some p → (p.pts100 < last.pts100 ↔
        i < (packets.filter (VobPacket.pts100 · < last.pts100)).length) := fun i p hp => by
      rw [← filter_lt_iff hdown hp, decide_eq_true_eq]
    have hse : (packets.filter (VobPacket.pts100 · < last.pts100)).length ≤ front.length :=
      Nat.not_lt.1 fun hlt => Nat.lt_irrefl _ ((hs _ _ hlast).2 hlt)
    rw [hfilter, List.length_append, List.length_singleton] at hle
    refine ⟨_, front.length + 1, Nat.le_succ_of_le hse, (List.getElem?_eq_some_iff.1 hlast).1, hle,
      fun i p p' hp hp' hi => ?_, fun _ => Nat.lt_succ_of_le hse, ?_⟩
    · cases hp'.symm.trans hlast
      have hpl := (hup p (List.mem_of_getElem? hp)).1 ((hle i p hp).2 hi)
      have hiff := hs i p hp
      omega
    · have htake : packets.take (front.length + 1) =
          packets.filter (VobPacket.pts100 · ≤ last.pts100) := by
        have hfirst := congrArg (List.take (front.length + 1)) hsplit
        rw [hfilter, List.take_left' (by simp)] at hfirst
        rw [← List.filter_congr fun p hp => decide_eq_decide.2 (hup p hp), hfilter, hfirst]
      have hless : ∀ p : VobPacket, (decide (p.pts100 < last.pts100) &&
          decide (p.pts100 ≤ last.pts100)) = decide (p.pts100 < last.pts100) := fun p => by
        rw [Bool.eq_iff_iff]
        simp
        omega
      have hsame : ∀ p : VobPacket, (!decide (p.pts100 < last.pts100) &&
          decide (p.pts100 ≤ last.pts100)) = decide (p.pts100 = last.pts100) := fun p => by
        rw [Bool.eq_iff_iff]
        simp
        omega
      have hgroup := filter_append_filter_not (hdown.filter (VobPacket.pts100 · ≤ last.pts100))
      simp only [List.filter_filter, hless, hsame] at hgroup
      unfold duePackets
      rw [hfilter, List.getLast?_concat, ← List.drop_take, htake, ← hgroup]
      exact List.drop_left.symm

/-! ## Seeking the packets that are due -/

variable {pts100 s e : Nat}

theorem Due.forward (h : Due packets pts100 s e) {left current lastpts count : Nat}
    (hle : current ≤ e) (hleft : packets.length - current = left) :
    ∃ lastpts', reseekForward packets pts100 left current lastpts count =
        (e, lastpts', count + (e - current)) ∧
      (current = e → lastpts' = lastpts) ∧
      ∀ p, packets[e - 1]? = some p → current < e → lastpts' = p.pts100 := by
  have hlength := h.length
  induction left generalizing current lastpts count with
  | zero =>
    obtain rfl : current = e := by omega
    exact ⟨lastpts, by rw [reseekForward, Nat.sub_self, Nat.add_zero], fun _ => rfl,
      fun p _ hlt => absurd hlt (Nat.lt_irrefl _)⟩
  | succ left ih =>
    obtain ⟨p, hp⟩ := exists_getElem? (show current < packets.length by omega)
    have hiff := h.le_iff current p hp
    rw [reseekForward, hp]
    by_cases hlt : current < e
    · obtain ⟨lastpts', heq, hsame, hlast⟩ :=
        @ih (current + 1) p.pts100 (count + 1) hlt (by omega)
      refine ⟨lastpts', ?_, fun he => by omega, fun p' hp' _ => ?_⟩
      · simp only [if_pos (hiff.2 hlt), heq]
        congr 2
        omega
      · by_cases hnext : current + 1 = e
        · have hpe : packets[e - 1]? = some p := by
            rw [← hnext]
            exact hp
          cases hpe.symm.trans hp'
          exact hsame hnext
        · exact hlast p' hp' (by omega)
    · obtain rfl : current = e := by omega
      refine ⟨lastpts, ?_, fun _ => rfl, fun p _ hlt => absurd hlt (Nat.lt_irrefl _)⟩
      simp only [if_neg fun hpt => hlt (hiff.1 hpt), Nat.sub_self, Nat.add_zero]

theorem Due.back (h : Due packets pts100 s e) (hin : InOrder packets) {p : VobPacket}
    (hp : packets[e - 1]? = some p) {count current : Nat} (hs : s < current) (he : current ≤ e)
    (hcount : count ≤ current) :
    reseekBack packets p.pts100 count current = some (max (current - count) s) := by
  have hlength := h.length
  induction count generalizing current with
  | zero => rw [reseekBack, Nat.sub_zero, Nat.max_eq_left (Nat.le_of_lt hs)]
  | succ count ih =>
    match current with
    | 0 => omega
    | 1 =>
      obtain rfl : s = 0 := by omega
      rw [reseekBack, Nat.max_eq_left (Nat.zero_le _)]
      congr 1
      omega
    | current + 2 =>
      obtain ⟨p', hp'⟩ := exists_getElem? (show current < packets.length by omega)
      have hsame := h.same current p' p hp' hp (by omega)
      have hset := Nat.ne_of_lt (hin.lt p' (List.mem_of_getElem? hp'))
      rw [reseekBack, hp']
      simp only [Option.bind_eq_bind, Option.bind_some]
      by_cases hlt : s ≤ current
      · rw [if_neg fun hne => hne.2 (hsame.2 hlt), ih (by omega) (by omega) (by omega)]
        congr 2
        omega
      · rw [if_pos ⟨hset, fun heq => hlt (hsame.1 heq)⟩]
        congr 1
        omega

/-- The index moves to the packets that are due, unless it is among them or just behind. -/
theorem Due.reseek {q : PacketQueue} (h : Due q.packets pts100 s e) (hin : InOrder q.packets)
    (hread : q.currentIndex < q.packets.length ∨ q.currentIndex = 0) :
    vobsubQueueReseek q pts100 =
      some { q with currentIndex := max (if e < q.currentIndex then 0 else q.currentIndex) s } := by
  have hlength := h.length
  let c := if e < q.currentIndex then 0 else q.currentIndex
  have hlook : seekBack q pts100 = some c := by
    unfold seekBack
    cases hq : q.currentIndex with
    | zero => simp [c, hq]
    | succ k =>
      rw [hq] at hread
      obtain ⟨p, hp⟩ := exists_getElem? (show k + 1 < q.packets.length by omega)
      obtain ⟨p', hp'⟩ := exists_getElem? (show k < q.packets.length by omega)
      have hiff := h.le_iff (k + 1) p hp
      have hiff' := h.le_iff k p' hp'
      have hset := Nat.ne_of_lt (hin.lt p (List.mem_of_getElem? hp))
      have hset' := Nat.ne_of_lt (hin.lt p' (List.mem_of_getElem? hp'))
      simp only [Nat.zero_lt_succ, if_true, hp, Option.bind_eq_bind, Option.bind_some, lookBack,
        hp', hset, hset', if_false, false_or, Nat.add_sub_cancel, c, hq]
      by_cases hlt : pts100 < p.pts100
      · rw [if_pos hlt]
        congr 1
        by_cases he : e < k + 1
        · rw [if_pos he, if_pos (by omega)]
        · rw [if_neg he, if_neg (by omega)]
      · rw [if_neg hlt, if_neg (by omega)]
  have hc : c ≤ e := by
    simp only [c]
    split <;> omega
  unfold vobsubQueueReseek
  rw [hlook]
  change _ = some { q with currentIndex := max c s }
  clear_value c
  obtain ⟨lastpts, hforward, -, hlast⟩ :=
    @Due.forward _ _ _ _ h (q.packets.length - c) c 0 0 hc rfl
  simp only [Option.bind_eq_bind, Option.bind_some, hforward, Nat.zero_add]
  have hback : reseekBack q.packets lastpts (e - c) e = some (max c s) := by
    by_cases hlt : c < e
    · obtain ⟨p, hp⟩ := exists_getElem? (show e - 1 < q.packets.length by omega)
      rw [hlast p hp hlt, h.back hin hp (h.pos (by omega)) (Nat.le_refl e) (by omega)]
      congr 2
      omega
    · obtain rfl : c = e := by omega
      rw [Nat.sub_self, reseekBack, Nat.max_eq_left h.le]
  rw [hback]
  rfl

/-- What a call returns is the next packet that is due. -/
theorem Due.getPacket {q : PacketQueue} (h : Due q.packets pts100 s e) (hin : InOrder q.packets)
    (hread : q.currentIndex < q.packets.length) :
    ∃ j, s ≤ j ∧ j ≤ e ∧ (s ≤ q.currentIndex → q.currentIndex ≤ e → j = q.currentIndex) ∧
      vobsubGetPacket q pts100 = some ({ q with currentIndex := if j < e then j + 1 else e },
        if j < e then q.packets[j]? else none) := by
  have hlength := h.length
  have hle := h.le
  refine ⟨max (if e < q.currentIndex then 0 else q.currentIndex) s, Nat.le_max_right _ _, ?_, ?_,
    ?_⟩
  · split <;> omega
  · intro h1 h2
    rw [if_neg (by omega)]
    omega
  · have hj : max (if e < q.currentIndex then 0 else q.currentIndex) s ≤ e := by
      split <;> omega
    unfold vobsubGetPacket
    rw [h.reseek hin (.inl hread)]
    generalize max (if e < q.currentIndex then 0 else q.currentIndex) s = j at *
    simp only [Option.bind_eq_bind, Option.bind_some]
    congr 1
    cases hleft : q.packets.length - j with
    | zero =>
      rw [getDue, if_neg (by omega), if_neg (by omega)]
      congr 2
      omega
    | succ left =>
      obtain ⟨p, hp⟩ := exists_getElem? (show j < q.packets.length by omega)
      have hiff := h.le_iff j p hp
      have hset := Nat.ne_of_lt (hin.lt p (List.mem_of_getElem? hp))
      simp only [getDue, hp, if_pos hset]
      by_cases hlt : j < e
      · rw [if_pos (hiff.2 hlt), if_pos hlt, if_pos hlt]
      · rw [if_neg fun hpt => hlt (hiff.1 hpt), if_neg hlt, if_neg hlt]
        congr 2
        omega

/-! ## Runs -/

/-- No call of `vobsub_get_packet` comes when the queue is at its end. -/
def BeforeEnd : PacketQueue → List QueueOp → Prop
  | _, [] => True
  | q, op :: ops => (∀ pts100, op = .get pts100 → q.currentIndex < q.packets.length) ∧
      ∀ r ∈ queueStep q op, BeforeEnd r.1 ops

/-- The index stays in the queue, as do all reads.  After a seek the packets of that time are
returned in order, each once, and then none. -/
def Delivered : PacketQueue → List QueueOp → Prop
  | q, [] => q.currentIndex ≤ q.packets.length
  | q, op :: ops => q.currentIndex ≤ q.packets.length ∧
      (∀ pts100 k, op = .seek pts100 → q.id ≠ none → List.replicate k (QueueOp.get pts100) <+: ops →
        queueRun q (.seek pts100 :: List.replicate k (.get pts100)) =
          some (none :: (List.range k).map fun i => (duePackets q.packets pts100)[i]?)) ∧
      ∃ r, queueStep q op = some r ∧ Delivered r.1 ops

/-- The same packets, and an index among them. -/
structure PacketQueue.Follows (q q' : PacketQueue) : Prop where
  id_eq : q'.id = q.id
  packets_eq : q'.packets = q.packets
  le : q'.currentIndex ≤ q'.packets.length

theorem vobsubSeek_eq {q : PacketQueue} (hin : InOrder q.packets) (hid : q.id ≠ none)
    (h : Due q.packets pts100 s e) :
    vobsubSeek q pts100 = some { q with currentIndex := s } := by
  have hreseek := @Due.reseek _ _ _ { q with currentIndex := 0 } h hin (.inr rfl)
  rw [vobsubSeek, if_neg hid, hreseek]
  simp

theorem queueStep_follows {q : PacketQueue} (hin : InOrder q.packets)
    (hle : q.currentIndex ≤ q.packets.length) {op : QueueOp}
    (hget : ∀ pts100, op = .get pts100 → q.currentIndex < q.packets.length) :
    ∃ r, queueStep q op = some r ∧ q.Follows r.1 := by
  cases op with
  | get pts100 =>
    obtain ⟨s, e, h⟩ := hin.exists_due pts100
    obtain ⟨j, -, -, -, heq⟩ := h.getPacket hin (hget pts100 rfl)
    have hlength := h.length
    refine ⟨_, heq, rfl, rfl, ?_⟩
    dsimp only
    split <;> omega
  | next =>
    refine ⟨_, rfl, ?_⟩
    unfold vobsubGetNextPacket
    split
    · rename_i p hp
      exact ⟨rfl, rfl, (List.getElem?_eq_some_iff.1 hp).1⟩
    · exact ⟨rfl, rfl, hle⟩
  | seek pts100 =>
    by_cases hid : q.id = none
    · exact ⟨(q, none), by rw [queueStep, vobsubSeek, if_pos hid]; rfl, rfl, rfl, hle⟩
    · obtain ⟨s, e, h⟩ := hin.exists_due pts100
      refine ⟨({ q with currentIndex := s }, none), ?_, rfl, rfl, Nat.le_trans h.le h.length⟩
      rw [queueStep, vobsubSeek_eq hin hid h]
      rfl
  | reset => exact ⟨_, rfl, rfl, rfl, Nat.zero_le _⟩

/-- Calls for the same time return the packets that are left of those due, and then none. -/
theorem queueRun_gets {q : PacketQueue} (h : Due q.packets pts100 s e) (hin : InOrder q.packets)
    {k : Nat} {ops : List QueueOp} (hs : s ≤ q.currentIndex) (he : q.currentIndex ≤ e)
    (hbefore : BeforeEnd q (List.replicate k (.get pts100) ++ ops)) :
    queueRun q (List.replicate k (.get pts100)) = some ((List.range k).map fun i =>
      ((q.packets.drop q.currentIndex).take (e - q.currentIndex))[i]?) := by
  induction k generalizing q with
  | zero => rfl
  | succ k ih =>
    rw [List.replicate_succ, List.cons_append] at hbefore
    have hlt := hbefore.1 pts100 rfl
    obtain ⟨j, -, -, hj, heq⟩ := h.getPacket hin hlt
    obtain rfl := hj hs he
    have hnext := hbefore.2 _ heq
    rw [List.replicate_succ, queueRun, queueStep, heq, List.range_succ_eq_map, List.map_cons,
      List.map_map]
    simp only [Option.bind_eq_bind, Option.bind_some]
    by_cases hje : q.currentIndex < e
    · simp only [if_pos hje] at hnext ⊢
      have hrest := @ih { q with currentIndex := q.currentIndex + 1 } h hin
        (Nat.le_succ_of_le hs) hje hnext
      rw [hrest]
      simp only [Option.bind_some, List.getElem?_take, List.getElem?_drop, Function.comp_def]
      congr 2
      · rw [if_pos (by omega), Nat.add_zero]
      · refine List.map_congr_left fun i _ => ?_
        rw [Nat.add_right_comm, Nat.add_assoc]
        by_cases hi : i < e - (q.currentIndex + 1)
        · rw [if_pos hi, if_pos (by omega)]
        · rw [if_neg hi, if_neg (by omega)]
    · obtain rfl : e = q.currentIndex := by omega
      simp only [if_neg hje] at hnext ⊢
      have hrest := @ih { q with currentIndex := q.currentIndex } h hin hs (Nat.le_refl _) hnext
      rw [hrest]
      simp only [Nat.sub_self, List.take_zero, List.getElem?_nil, Option.bind_some,
        Function.comp_def]

/-- The packets are delivered in exactly the runs in which `vobsub_get_packet` is not called at
the end of the queue. -/
theorem delivered_iff (q : PacketQueue) (ops : List QueueOp) (hne : q.packets ≠ [])
    (hin : InOrder q.packets) (hle : q.currentIndex ≤ q.packets.length) :
    Delivered q ops ↔ BeforeEnd q ops := by
  induction ops generalizing q with
  | nil => exact ⟨fun _ => trivial, fun _ => hle⟩
  | cons op ops ih =>
    constructor
    · rintro ⟨-, -, r, hstep, hrest⟩
      have hget : ∀ pts100, op = .get pts100 → q.currentIndex < q.packets.length := by
        rintro pts100 rfl
        refine Nat.lt_of_le_of_ne hle fun hend => ?_
        -- the packet behind the last one is read
        have hpos : 0 < q.currentIndex := by
          rw [hend]
          exact List.length_pos_iff.2 hne
        have hnone : q.packets[q.currentIndex]? = none :=
          List.getElem?_eq_none (Nat.le_of_eq hend.symm)
        rw [queueStep, vobsubGetPacket, vobsubQueueReseek, seekBack, if_pos hpos, hnone] at hstep
        cases hstep
      obtain ⟨r', hstep', hf⟩ := queueStep_follows hin hle hget
      cases hstep.symm.trans hstep'
      refine ⟨hget, fun r' hr' => ?_⟩
      cases hstep.symm.trans hr'
      exact (ih r.1 (hf.packets_eq ▸ hne) (hf.packets_eq ▸ hin) hf.le).1 hrest
    · rintro ⟨hget, hrest⟩
      obtain ⟨r, hstep, hf⟩ := queueStep_follows hin hle hget
      refine ⟨hle, ?_, r, hstep,
        (ih r.1 (hf.packets_eq ▸ hne) (hf.packets_eq ▸ hin) hf.le).2 (hrest r hstep)⟩
      rintro pts100 k rfl hid ⟨rest, rfl⟩
      obtain ⟨s, e, h⟩ := hin.exists_due pts100
      have hseek := vobsubSeek_eq hin hid h
      rw [queueStep, hseek] at hstep
      cases hstep
      have hgets := @queueRun_gets _ _ _ { q with currentIndex := s } h hin k rest (Nat.le_refl _)
        h.le (hrest _ (by rw [queueStep, hseek]; rfl))
      rw [queueRun, queueStep, hseek]
      simp only [Option.map_some, Option.bind_eq_bind, Option.bind_some, hgets, h.eq]

/-- Two packets at 1 and one at 2, of a stream that has an id. -/
def threePackets : PacketQueue :=
  ⟨some "en", [⟨90000, [1]⟩, ⟨90000, [2]⟩, ⟨180000, [3]⟩], 0⟩

theorem threePackets_inOrder : InOrder threePackets.packets := ⟨by decide, by decide⟩

theorem delivered_threePackets :
    Delivered threePackets [.seek 100000, .get 100000, .get 100000, .get 100000] ↔
      BeforeEnd threePackets [.seek 100000, .get 100000, .get 100000, .get 100000] :=
  delivered_iff threePackets _ (by decide) threePackets_inOrder (by decide)

end MPlayer
