import MPlayer.Demux.Basic
import MPlayer.Lib.LinkedQueue

/-!
# The packet queue and the window

Seen from its readers, a stream is a sequence of unread bytes: those left in the
window, then those of the queued packets.  `Demuxer.Queue` and `Demuxer.Window` say
which bytes these are, and `Demuxer.Holds` puts them together.  Adding a packet
appends to the sequence, and filling the window does not change it, but for what
the demuxer adds meanwhile.
-/

namespace MPlayer

open Lib

variable {τ : Type} {d d' : Demuxer τ} {q : List (Nat × List UInt8)} {w : List UInt8}

/-! ## Invariants -/

/-- The sum of the lengths of queued packets. -/
def totalLength : List (Nat × List UInt8) → Nat
  | [] => 0
  | x :: q => x.2.length + totalLength q

theorem totalLength_append : ∀ q q' : List (Nat × List UInt8),
    totalLength (q ++ q') = totalLength q + totalLength q'
  | [], q' => (Nat.zero_add _).symm
  | x :: q, q' => by
    rw [List.cons_append, totalLength, totalLength, totalLength_append q q', Nat.add_assoc]

/-- The queued packets are those of `q`, with their addresses. -/
structure Demuxer.Queue (d : Demuxer τ) (q : List (Nat × List UInt8)) : Prop where
  linked : LinkedQueue DemuxPacket.next (fun p => p.payload) d.cells d.ds.first d.ds.last q
  packs : d.ds.packs = q.length
  bytes : d.ds.bytes = totalLength q
  old : ∀ x ∈ q, x.1 < d.fresh
  current : ∀ p, d.ds.current = some p → p < d.fresh ∧ p ∉ q.map Prod.fst

/-- The bytes left in the window are those of `w`. -/
structure Demuxer.Window (d : Demuxer τ) (w : List UInt8) : Prop where
  pos_nonneg : 0 ≤ d.ds.bufferPos
  pos_le : d.ds.bufferPos ≤ d.ds.bufferSize
  drop_eq : d.ds.buffer.drop d.ds.bufferPos.toNat = w
  length_eq : (w.length : Int) = d.ds.bufferSize - d.ds.bufferPos

/-- The bytes not read yet are those of `xs`. -/
def Demuxer.Holds (d : Demuxer τ) (xs : List UInt8) : Prop :=
  ∃ w q, d.Window w ∧ d.Queue q ∧ w ++ (q.map Prod.snd).flatten = xs

/-- The payloads of the packets that the answers add, in order. -/
def payloads (fills : List (DemuxFill τ)) : List (List UInt8) :=
  fills.flatMap fun f => f.packets.map fun p => p.payload

@[simp] theorem payloads_nil : payloads ([] : List (DemuxFill τ)) = [] := rfl

@[simp] theorem payloads_cons (f : DemuxFill τ) (fills : List (DemuxFill τ)) :
    payloads (f :: fills) = (f.packets.map fun p => p.payload) ++ payloads fills := rfl

@[simp] theorem payloads_append (fills fills' : List (DemuxFill τ)) :
    payloads (fills ++ fills') = payloads fills ++ payloads fills' :=
  List.flatMap_append

/-- The payload of the packet that a call of `ds_fill_buffer` takes: the first one
queued, or else the first one added. -/
def Demuxer.nextPayload (d : Demuxer τ) (fills : List (DemuxFill τ)) : Option (List UInt8) :=
  match d.ds.first with
  | some p => (d.cells p).map fun p => p.payload
  | none => (payloads (fills.filter fun f => f.ok)).head?

/-- What is queued comes in front of what the fills bring. -/
theorem Demuxer.Queue.nextPayload_eq (h : d.Queue q) (fills : List (DemuxFill τ)) :
    d.nextPayload fills = (q.map Prod.snd ++ payloads (fills.filter fun f => f.ok)).head? := by
  cases q with
  | nil =>
    have hfirst : d.ds.first = none := h.linked.listed
    rw [nextPayload, hfirst]
    rfl
  | cons x q =>
    obtain ⟨p, hfirst, hp, hx, -⟩ := h.linked.pop
    rw [nextPayload, hfirst]
    simp only [hp, Option.map_some, hx, List.map_cons, List.cons_append, List.head?_cons]

/-! ## Adding packets -/

/-- The window of `d'` is that of `d`, and so is the packet it is in. -/
structure Demuxer.SameWindow (d d' : Demuxer τ) : Prop where
  pos : d'.ds.bufferPos = d.ds.bufferPos
  size : d'.ds.bufferSize = d.ds.bufferSize
  buffer : d'.ds.buffer = d.ds.buffer
  dpos : d'.ds.dpos = d.ds.dpos
  current : d'.ds.current = d.ds.current

theorem Demuxer.SameWindow.refl (d : Demuxer τ) : d.SameWindow d := ⟨rfl, rfl, rfl, rfl, rfl⟩

theorem Demuxer.SameWindow.trans {d'' : Demuxer τ} (h : d.SameWindow d')
    (h' : d'.SameWindow d'') : d.SameWindow d'' :=
  ⟨h'.pos.trans h.pos, h'.size.trans h.size, h'.buffer.trans h.buffer, h'.dpos.trans h.dpos,
    h'.current.trans h.current⟩

/-- The window is kept. -/
theorem Demuxer.Window.same (h : d.Window w) (hs : d.SameWindow d') : d'.Window w := by
  obtain ⟨hpos, hle, hdrop, hlength⟩ := h
  rw [← hs.pos] at hpos hle hdrop hlength
  rw [← hs.size] at hle hlength
  rw [← hs.buffer] at hdrop
  exact ⟨hpos, hle, hdrop, hlength⟩

/-- The position depends on the window only. -/
theorem Demuxer.SameWindow.tell (h : d.SameWindow d') : dsTell d'.ds = dsTell d.ds := by
  rw [dsTell, dsTell, h.dpos, h.size, h.pos]

/-- A packet goes to the end of the queue. -/
theorem addNewPacket_queue (p : PacketData τ) (h : d.Queue q) :
    ∃ d', addNewPacket p d = some d' ∧ d'.Queue (q ++ [(d.fresh, p.payload)]) ∧
      d.SameWindow d' := by
  have hpacks : d.ds.packs + 1 = ((q ++ [(d.fresh, p.payload)]).length : Int) := by
    rw [h.packs, List.length_append]
    rfl
  have hbytes : d.ds.bytes + p.len = totalLength (q ++ [(d.fresh, p.payload)]) := by
    rw [h.bytes, totalLength_append]
    rfl
  have hold : ∀ x ∈ q ++ [(d.fresh, p.payload)], x.1 < d.fresh + 1 := by
    intro x hx
    rcases List.mem_append.mp hx with hx | hx
    · exact Nat.lt_succ_of_lt (h.old x hx)
    · rw [List.mem_singleton.mp hx]
      exact Nat.lt_succ_self _
  have hcurrent : ∀ c, d.ds.current = some c →
      c < d.fresh + 1 ∧ c ∉ (q ++ [(d.fresh, p.payload)]).map Prod.fst := by
    intro c hc
    obtain ⟨hlt, hnot⟩ := h.current c hc
    refine ⟨Nat.lt_succ_of_lt hlt, ?_⟩
    rw [List.map_append, List.mem_append]
    rintro (hmem | hmem)
    · exact hnot hmem
    · exact absurd (List.mem_singleton.mp hmem) (Nat.ne_of_lt hlt)
  cases hlast : d.ds.last with
  | none =>
    refine ⟨{ newDemuxPacket p d with
      ds := { d.ds with
        packs := d.ds.packs + 1
        bytes := d.ds.bytes + p.len
        first := some d.fresh
        last := some d.fresh } }, ?_, ⟨?_, hpacks, hbytes, hold, hcurrent⟩,
      ⟨rfl, rfl, rfl, rfl, rfl⟩⟩
    · simp [addNewPacket, dsAddPacket, dsAddPacketInternal, newDemuxPacket, hlast]
    · have hlinked := h.linked
      rw [hlast] at hlinked
      exact hlinked.push_empty (d := { p with next := none }) (Function.update_self ..) rfl
  | some l =>
    have hlinked := h.linked
    rw [hlast] at hlinked
    obtain ⟨front, v, c, hq, hc⟩ := hlinked.split_last
    have hlold : l < d.fresh := h.old (l, v) (by simp [hq])
    have hne : d.fresh ≠ l := Nat.ne_of_gt hlold
    refine ⟨{ newDemuxPacket p d with
      cells := Function.update (newDemuxPacket p d).cells l (some { c with next := some d.fresh })
      ds := { d.ds with
        packs := d.ds.packs + 1
        bytes := d.ds.bytes + p.len
        last := some d.fresh } }, ?_, ⟨?_, hpacks, hbytes, hold, hcurrent⟩,
      ⟨rfl, rfl, rfl, rfl, rfl⟩⟩
    · simp [addNewPacket, dsAddPacket, dsAddPacketInternal, newDemuxPacket, hlast,
        Function.update_of_ne hne.symm, hc]
    · refine hlinked.push (e := { c with next := some d.fresh }) (d := { p with next := none })
        hc (Function.update_self ..) rfl rfl ?_ rfl ?_
      · exact (Function.update_of_ne hne ..).trans (Function.update_self ..)
      · intro x hx hxl
        have hxf : x.1 ≠ d.fresh := Nat.ne_of_lt (h.old x hx)
        exact (Function.update_of_ne hxl ..).trans (Function.update_of_ne hxf ..)

/-- Packets are queued in their order. -/
theorem addNewPackets_queue : ∀ (ps : List (PacketData τ)) {d : Demuxer τ}
    {q : List (Nat × List UInt8)}, d.Queue q →
    ∃ d' q', addNewPackets ps d = some d' ∧ d'.Queue (q ++ q') ∧
      q'.map Prod.snd = (ps.map fun p => p.payload) ∧ d.SameWindow d'
  | [], d, q, h => ⟨d, [], rfl, by rwa [List.append_nil], rfl, .refl d⟩
  | p :: ps, d, q, h => by
    obtain ⟨d₁, hadd, hq₁, hsame₁⟩ := addNewPacket_queue p h
    obtain ⟨d₂, q₂, hadds, hq₂, hpayloads, hsame₂⟩ := addNewPackets_queue ps hq₁
    refine ⟨d₂, (d.fresh, p.payload) :: q₂, ?_, ?_, ?_, hsame₁.trans hsame₂⟩
    · rw [addNewPackets, hadd]
      exact hadds
    · rwa [List.append_assoc, List.singleton_append] at hq₂
    · rw [List.map_cons, List.map_cons, hpayloads]

/-- A fill queues its packets. -/
theorem demuxFillBuffer_queue (f : DemuxFill τ) (h : d.Queue q) :
    ∃ d' q', demuxFillBuffer f d = some d' ∧ d'.Queue (q ++ q') ∧
      q'.map Prod.snd = payloads [f] ∧ d.SameWindow d' := by
  obtain ⟨d', q', hadd, hq, hpayloads, hsame⟩ := addNewPackets_queue f.packets h
  refine ⟨{ d' with audio := f.audio, video := f.video, videoParsed := f.videoParsed }, q', ?_,
    ⟨hq.linked, hq.packs, hq.bytes, hq.old, hq.current⟩, ?_,
    ⟨hsame.pos, hsame.size, hsame.buffer, hsame.dpos, hsame.current⟩⟩
  · rw [demuxFillBuffer, hadd]
    rfl
  · rw [hpayloads, payloads_cons, payloads_nil, List.append_nil]

end MPlayer
