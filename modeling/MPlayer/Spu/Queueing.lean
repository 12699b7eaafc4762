import MPlayer.Spu.ControlSafety
import MPlayer.Spu.ImageSafety

/-!
# Queueing packets

`spudec_process_control` computes the size of a packet from coordinates of twelve bits, and queues
it while it reads control blocks that begin inside of it.  `spudec_packet_create` checks the size
that its caller gives.  So each packet in the queue is one of those that the display expects.
-/

namespace MPlayer.Spu

open Lib

/-! ## Control sequences -/

/-- A size from coordinates of twelve bits. -/
structure Locals.Sized (v : Locals) : Prop where
  width_le : v.width ≤ 4096
  height_le : v.height ≤ 4096
  stride_eq : v.stride = (v.width + 15) / 16 * 16

theorem Locals.init_sized : Locals.init.Sized := ⟨by decide, by decide, rfl⟩

theorem setCoords_sized (a b : Nat) (v : Locals) : (setCoords a b v).Sized := by
  have hcol := Nat.mod_lt a (y := 2 ^ 12) (by decide)
  have hrow := Nat.mod_lt b (y := 2 ^ 12) (by decide)
  refine ⟨?_, ?_, rfl⟩
  · dsimp only [setCoords]
    split
    · exact Nat.zero_le _
    · omega
  · dsimp only [setCoords]
    split
    · exact Nat.zero_le _
    · omega

section Commands

variable {p : List UInt8} {pts100 : Int} {date off : Nat} {s t : Handle × Locals}

/-- A command queues nothing. -/
theorem command_sized {type : UInt8} {turn : Turn (Nat × Handle × Locals)} (hs : s.2.Sized)
    (h : command p pts100 date off s type = .ok turn) :
    turn.state.2.2.Sized ∧ turn.state.2.1.queue = s.1.queue := by
  unfold command at h
  split at h
  · cases h
    exact ⟨hs, rfl⟩
  · split at h
    case h_1 | h_2 | h_3 =>
      cases h
      exact ⟨⟨hs.width_le, hs.height_le, hs.stride_eq⟩, rfl⟩
    case h_4 | h_5 =>
      obtain ⟨nibbles, -, h⟩ := bind_ok_iff.mp h
      cases h
      exact ⟨hs, rfl⟩
    case h_6 =>
      obtain ⟨a, -, h⟩ := bind_ok_iff.mp h
      obtain ⟨b, -, h⟩ := bind_ok_iff.mp h
      cases h
      exact ⟨setCoords_sized a b s.2, rfl⟩
    case h_7 =>
      obtain ⟨offset0, -, h⟩ := bind_ok_iff.mp h
      obtain ⟨offset1, -, h⟩ := bind_ok_iff.mp h
      cases h
      exact ⟨⟨hs.width_le, hs.height_le, hs.stride_eq⟩, rfl⟩
    case h_8 =>
      cases h
      exact ⟨hs, rfl⟩

theorem commands_sized (hs : s.2.Sized) (h : commands p pts100 date off s = .ok t) :
    t.2.Sized ∧ t.1.queue = s.1.queue := by
  obtain ⟨⟨last, u⟩, hloop, h⟩ := bind_ok_iff.mp h
  cases h
  refine loop_keeps (P := fun r => r.2.2.Sized ∧ r.2.1.queue = s.1.queue) ?_ ⟨hs, rfl⟩ hloop
  intro r turn hr hturn
  obtain ⟨type, -, hcommand⟩ := bind_ok_iff.mp hturn
  obtain ⟨hsized, hqueue⟩ := command_sized hr.1 hcommand
  exact ⟨hsized, hqueue.trans hr.2⟩

end Commands

section Blocks

variable {p : List UInt8} {pts100 : Int} {controlStart : Nat}

theorem lt_of_getBe16 {i w : Nat} (h : getBe16 p i = .ok w) : i + 1 < p.length := by
  by_contra hlt
  rw [getBe16_error (Nat.le_of_not_lt hlt)] at h
  cases h

theorem makePacket_rle {v : Locals} (hv : v.Sized) (hcontrol : controlStart ≤ p.length)
    (h : Handle) : (makePacket p controlStart h v).Rle :=
  ⟨rfl, hv.width_le, hv.height_le, hv.stride_eq, hcontrol⟩

/-- The queue `queue` and RLE packets behind it. -/
def Extends (queue queue' : List Packet) : Prop :=
  ∃ packets : List Packet, queue' = queue ++ packets ∧ ∀ packet ∈ packets, packet.Rle

theorem Extends.refl (queue : List Packet) : Extends queue queue :=
  ⟨[], (List.append_nil queue).symm, fun _ hmem => absurd hmem List.not_mem_nil⟩

theorem Extends.snoc {queue queue' : List Packet} {packet : Packet} (h : Extends queue queue')
    (hrle : packet.Rle) : Extends queue (queue' ++ [packet]) := by
  obtain ⟨packets, rfl, hall⟩ := h
  refine ⟨packets ++ [packet], List.append_assoc _ _ _, fun q hq => ?_⟩
  cases List.mem_append.mp hq with
  | inl hmem => exact hall q hmem
  | inr hmem =>
    rw [List.mem_singleton.mp hmem]
    exact hrle

theorem endBlock_sized {startOff nextOff : Nat} {s t : Handle × Locals} {queue : List Packet}
    (hs : s.2.Sized) (hqueue : Extends queue s.1.queue) (hcontrol : controlStart ≤ p.length)
    (h : endBlock p pts100 controlStart startOff nextOff s = .ok t) :
    t.2.Sized ∧ Extends queue t.1.queue := by
  unfold endBlock at h
  split at h
  · obtain ⟨endPts, -, h⟩ := bind_ok_iff.mp h
    cases h
    have hsized : Locals.Sized { s.2 with endPts := endPts } :=
      ⟨hs.width_le, hs.height_le, hs.stride_eq⟩
    dsimp only [queueBlock]
    split
    · exact ⟨hsized, hqueue.snoc (makePacket_rle hsized hcontrol s.1)⟩
    · exact ⟨hsized, hqueue⟩
  · cases h
    exact ⟨hs, hqueue⟩

/-- What holds in front of each block.  A pointer that is read shows that the first one
was in the packet. -/
structure Queueing (p : List UInt8) (controlStart : Nat) (queue : List Packet)
    (r : (Nat × Nat) × Handle × Locals) : Prop where
  sized : r.2.2.Sized
  extended : Extends queue r.2.1.queue
  inside : r.1.2 = controlStart ∨ controlStart ≤ p.length

theorem Queueing.blockTurn {queue : List Packet} {r : (Nat × Nat) × Handle × Locals}
    {turn : Turn ((Nat × Nat) × Handle × Locals)} (hr : Queueing p controlStart queue r)
    (h : blockTurn p pts100 controlStart r = .ok turn) :
    Queueing p controlStart queue turn.state := by
  obtain ⟨⟨startOff, nextOff⟩, s⟩ := r
  unfold Spu.blockTurn at h
  dsimp only at h
  split at h
  · cases h
    exact hr
  · obtain ⟨date, hdate, h⟩ := bind_ok_iff.mp h
    obtain ⟨next, -, h⟩ := bind_ok_iff.mp h
    obtain ⟨u, hu, h⟩ := bind_ok_iff.mp h
    obtain ⟨t, ht, h⟩ := bind_ok_iff.mp h
    cases h
    have hlt : nextOff + 1 < p.length := lt_of_getBe16 hdate
    have hcontrol : controlStart ≤ p.length := by
      cases hr.inside with
      | inl heq =>
        have hnext : nextOff = controlStart := heq
        omega
      | inr hle => exact hle
    obtain ⟨hsized, hsame⟩ := commands_sized hr.sized hu
    have hqueue : Extends queue u.1.queue := by
      rw [hsame]
      exact hr.extended
    obtain ⟨hlast, hextended⟩ := endBlock_sized hsized hqueue hcontrol ht
    exact ⟨hlast, hextended, .inr hcontrol⟩

/-- The packets that control sequences queue are ones that the display expects. -/
theorem processControl_extends {h h' : Handle} (hrun : processControl h p pts100 = .ok h') :
    Extends h.queue h'.queue := by
  obtain ⟨controlStart, -, hrun⟩ := bind_ok_iff.mp hrun
  obtain ⟨⟨last, u⟩, hloop, hrun⟩ := bind_ok_iff.mp hrun
  cases hrun
  have hinit : Queueing p controlStart h.queue ((0, controlStart), h, Locals.init) :=
    ⟨Locals.init_sized, Extends.refl _, .inl rfl⟩
  exact (loop_keeps Queueing.blockTurn hinit hloop).extended

/-- A block that sets colours, a picture of 8 by 4 at (2, 16) and its place, and begins the
display. -/
theorem processControl_extends_area : ∃ h,
    processControl emptyHandle [0, 28, 0, 4, 0, 0, 0, 4, 3, 0x12, 0x34, 4, 0xff, 0xf0,
      5, 0x00, 0x20, 0x09, 0x01, 0x00, 0x14, 6, 0, 4, 0, 4, 1, 255] 0 = .ok h ∧
      (h.queue.map fun q => (q.startCol, q.startRow, q.width, q.height)) = [(2, 16, 8, 4)] ∧
      Extends [] h.queue := by
  obtain ⟨h, hh, hqueue⟩ := Option.map_eq_some_iff.1 (show
    (processControl emptyHandle [0, 28, 0, 4, 0, 0, 0, 4, 3, 0x12, 0x34, 4, 0xff, 0xf0,
      5, 0x00, 0x20, 0x09, 0x01, 0x00, 0x14, 6, 0, 4, 0, 4, 1, 255] 0).toOption.map
      (fun h => h.queue.map fun q => (q.startCol, q.startRow, q.width, q.height)) =
        some [(2, 16, 8, 4)] by decide +kernel)
  have hrun := eq_ok_of_toOption hh
  exact ⟨h, hrun, hqueue, processControl_extends hrun⟩

end Blocks

end MPlayer.Spu
