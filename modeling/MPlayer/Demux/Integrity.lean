import MPlayer.Demux.Readers
import MPlayer.Lib.Run

/-!
# No byte of a stream is lost, repeated or reordered

A run adds packets to one stream and reads from it, with the three readers in any
order and with any answers of the demuxer.  In every state it reaches, the bytes
handed out are the first ones of the packets added, and the counters agree with the
queue.

The exception is a `demux_getc` that finds the window used up and takes an empty
packet into it: `ds_fill_buffer` succeeded, so it reads a byte that is not there.
A run is *safe* if it has no such call.  One such call always breaks the window.
-/

namespace MPlayer

open Lib

variable {τ : Type} {d d₀ d' : Demuxer τ}

/-! ## Runs -/

/-- A call on the stream, with the answers of the demuxer to what it asks. -/
inductive DemuxCall (τ : Type) where
  | addPacket (p : PacketData τ)
  | readData (fills : List (DemuxFill τ)) (len : Int)
  | getc (fills : List (DemuxFill τ))
  | getPacket (fills : List (DemuxFill τ))

/-- A stream in use: its state, the bytes of the packets added, and those handed
out. -/
structure DemuxRun (τ : Type) where
  d : Demuxer τ
  added : List UInt8
  consumed : List (Option UInt8)

/-- A call adds some bytes to a stream, and hands some out. -/
def DemuxRun.next (r : DemuxRun τ) (added : List UInt8) (out : List (Option UInt8))
    (d : Demuxer τ) : DemuxRun τ where
  d := d
  added := r.added ++ added
  consumed := r.consumed ++ out

/-- A call that returns, and asks for as many answers as it is given. -/
inductive DemuxStep : DemuxRun τ → DemuxCall τ → DemuxRun τ → Prop where
  | addPacket {r : DemuxRun τ} {p : PacketData τ} {d : Demuxer τ} :
      addNewPacket p r.d = some d → DemuxStep r (.addPacket p) (r.next p.payload [] d)
  | readData {r : DemuxRun τ} {fills : List (DemuxFill τ)} {len : Int} {mem : List UInt8}
      {d : Demuxer τ} : Returns (fun fuel => demuxReadData fuel fills r.d len) (mem, d, []) →
      DemuxStep r (.readData fills len) (r.next (addedBytes fills) (mem.map some) d)
  | getc {r : DemuxRun τ} {fills : List (DemuxFill τ)} {c : Option (Option UInt8)}
      {d : Demuxer τ} : demuxGetc fills r.d = some (c, d, []) →
      DemuxStep r (.getc fills) (r.next (addedBytes fills) c.toList d)
  | getPacket {r : DemuxRun τ} {fills : List (DemuxFill τ)} {len : Int} {data : List UInt8}
      {d : Demuxer τ} : dsGetPacket fills r.d = some ((len, data), d, []) →
      DemuxStep r (.getPacket fills) (r.next (addedBytes fills) (data.map some) d)

/-- No `demux_getc` that takes an empty packet into a window used up. -/
def DemuxCall.Safe (d : Demuxer τ) : DemuxCall τ → Prop
  | getc fills => d.ds.bufferPos < d.ds.bufferSize ∨ d.nextPayload fills ≠ some []
  | _ => True

/-- A safe call. -/
def DemuxSafeStep (r : DemuxRun τ) (call : DemuxCall τ) (r' : DemuxRun τ) : Prop :=
  call.Safe r.d ∧ DemuxStep r call r'

/-- Nothing is queued, and nothing left in the window. -/
structure Demuxer.Empty (d : Demuxer τ) : Prop where
  first : d.ds.first = none
  last : d.ds.last = none
  current : d.ds.current = none
  packs : d.ds.packs = 0
  bytes : d.ds.bytes = 0
  buffer : d.ds.buffer = []
  pos : d.ds.bufferPos = d.ds.bufferSize
  size : 0 ≤ d.ds.bufferSize

theorem newDemuxerStream_empty [OfNat τ 0] (h : d.ds = newDemuxerStream) :
    d.Empty ∧ dsTell d.ds = 0 := by
  rw [h]
  refine ⟨⟨?_, ?_, ?_, ?_, ?_, ?_, ?_, ?_⟩, rfl⟩
  all_goals simp [h, newDemuxerStream]

/-- The stream before the first call. -/
def DemuxRun.start (d : Demuxer τ) : DemuxRun τ := ⟨d, [], []⟩

/-- The stream is in order: `base` is where `ds_tell` started. -/
structure DemuxRun.InOrder (base : Int) (r : DemuxRun τ) : Prop where
  consumed : r.consumed <+: r.added.map some
  queue : ∃ q : List (Nat × List UInt8),
    Listed DemuxPacket.next (fun p => p.payload) r.d.cells r.d.ds.first q ∧
      r.d.ds.packs = q.length ∧ r.d.ds.bytes = totalLength q ∧
      r.d.ds.last = q.getLast?.map Prod.fst
  last : r.d.ds.last = none ↔ r.d.ds.first = none
  pos_nonneg : 0 ≤ r.d.ds.bufferPos
  pos_le : r.d.ds.bufferPos ≤ r.d.ds.bufferSize
  tell : dsTell r.d.ds = base + r.consumed.length

/-! ## The invariant -/

/-- The bytes handed out and those not read yet are the bytes added. -/
def DemuxRun.Inv (base : Int) (r : DemuxRun τ) : Prop :=
  ∃ xs, r.d.Holds xs ∧ r.consumed ++ xs.map some = r.added.map some ∧
    dsTell r.d.ds = base + r.consumed.length

theorem DemuxRun.Inv.inOrder {base : Int} {r : DemuxRun τ} (h : r.Inv base) : r.InOrder base := by
  obtain ⟨xs, ⟨w, q, hw, hq, -⟩, hxs, htell⟩ := h
  exact ⟨⟨_, hxs⟩, ⟨q, hq.linked.listed, hq.packs, hq.bytes, hq.linked.last_eq⟩,
    hq.linked.last_none_iff, hw.pos_nonneg, hw.pos_le, htell⟩

theorem Demuxer.Empty.inv (h : d₀.Empty) : (DemuxRun.start d₀).Inv (dsTell d₀.ds) := by
  refine ⟨[], ⟨[], [], ⟨?_, ?_, ?_, ?_⟩, ⟨⟨h.first, h.last⟩, h.packs, h.bytes, ?_, ?_⟩, rfl⟩, rfl,
    (Int.add_zero _).symm⟩
  · rw [DemuxRun.start, h.pos]
    exact h.size
  · exact Int.le_of_eq h.pos
  · rw [DemuxRun.start, h.buffer, List.drop_nil]
  · rw [DemuxRun.start, h.pos, Int.sub_self]
    rfl
  · intro x hx
    cases hx
  · intro p hp
    cases h.current.symm.trans hp

/-- What a reader hands out extends what was handed out. -/
theorem DemuxRun.Inv.deliver {base : Int} {r : DemuxRun τ} {xs ys : List UInt8}
    {out : List (Option UInt8)} (hxs : r.consumed ++ xs.map some = r.added.map some)
    (htell : dsTell r.d.ds = base + r.consumed.length) (h : r.d.Delivers xs ys out d') :
    (r.next ys out d').Inv base := by
  obtain ⟨zs, hzs, hout, htell'⟩ := h
  refine ⟨zs, hzs, ?_, ?_⟩
  · simp only [next]
    rw [List.append_assoc, hout, List.map_append, ← List.append_assoc, hxs, List.map_append]
  · simp only [next]
    rw [htell', htell, List.length_append]
    omega

theorem addNewPacket_delivers {p : PacketData τ} {xs : List UInt8} (h : d.Holds xs)
    (hadd : addNewPacket p d = some d') : d.Delivers xs p.payload [] d' := by
  obtain ⟨w, q, hw, hq, rfl⟩ := h
  obtain ⟨d₁, hadd₁, hq₁, hsame⟩ := addNewPacket_queue p hq
  cases hadd.symm.trans hadd₁
  refine ⟨_, ⟨w, _, hw.same hsame, hq₁, rfl⟩, ?_, hsame.tell.trans (Int.add_zero _).symm⟩
  simp

theorem DemuxRun.Inv.step {base : Int} {r r' : DemuxRun τ} {call : DemuxCall τ}
    (h : r.Inv base) (hstep : DemuxSafeStep r call r') : r'.Inv base := by
  obtain ⟨xs, hholds, hxs, htell⟩ := h
  obtain ⟨hsafe, hstep⟩ := hstep
  cases hstep with
  | addPacket hadd => exact .deliver hxs htell (addNewPacket_delivers hholds hadd)
  | readData hread =>
    obtain ⟨n, hn⟩ := hread
    obtain ⟨used, hused, hdelivers, -⟩ := demuxReadData_holds n hholds (hn n (Nat.le_refl n))
    rw [List.append_nil] at hused
    rw [hused]
    exact .deliver hxs htell hdelivers
  | getc hget => exact .deliver hxs htell (demuxGetc_delivers hholds hsafe hget)
  | getPacket hget => exact .deliver hxs htell (dsGetPacket_delivers hholds hget)

/-! ## Freeing the packets -/

theorem dsFreeList_returns : ∀ (q : List (Nat × List UInt8)) {d : Demuxer τ} {first : Option Nat},
    Listed DemuxPacket.next (fun p => p.payload) d.cells first q →
    ∃ d', d'.ds = d.ds ∧ ∀ fuel, q.length < fuel → dsFreeList fuel d first = some d'
  | [], d, first, h => by
    refine ⟨d, rfl, fun fuel hfuel => ?_⟩
    obtain ⟨n, rfl⟩ := Nat.exists_eq_succ_of_ne_zero (Nat.ne_of_gt hfuel)
    cases h
    rfl
  | x :: q, d, first, h => by
    have hnodup := h.nodup
    rw [List.map_cons, List.nodup_cons] at hnodup
    obtain ⟨rfl, p, hp, -, hrest⟩ := h
    have hfreed : Listed DemuxPacket.next (fun p => p.payload)
        (freeDemuxPacket d (some x.1)).cells p.next q := by
      refine hrest.congr fun y hy => Function.update_of_ne ?_ _ _
      intro hyx
      exact hnodup.1 (hyx ▸ List.mem_map_of_mem hy)
    obtain ⟨d', hds, hfree⟩ := dsFreeList_returns q hfreed
    refine ⟨d', hds, fun fuel hfuel => ?_⟩
    obtain ⟨n, rfl⟩ := Nat.exists_eq_succ_of_ne_zero (Nat.ne_of_gt (Nat.zero_lt_of_lt hfuel))
    rw [dsFreeList, hp]
    exact hfree n (Nat.lt_of_succ_lt_succ hfuel)

@[simp] theorem freeDemuxPacket_ds (d : Demuxer τ) (dp : Option Nat) :
    (freeDemuxPacket d dp).ds = d.ds := by
  cases dp with
  | none => rfl
  | some dp => rfl

theorem dsResetPacks_empty [OfNat τ 0] (h : 0 ≤ d.ds.bufferSize) : (dsResetPacks d).Empty := by
  refine ⟨rfl, rfl, rfl, rfl, rfl, rfl, rfl, ?_⟩
  rw [dsResetPacks]
  simpa using h

/-- `ds_free_packs` returns, and leaves nothing. -/
theorem dsFreePacks_empty [OfNat τ 0] {xs : List UInt8} (h : d.Holds xs) :
    ∃ d', Returns (fun fuel => dsFreePacks fuel d) d' ∧ d'.Empty := by
  obtain ⟨w, q, hw, hq, -⟩ := h
  obtain ⟨d₁, hds, hfree⟩ := dsFreeList_returns q hq.linked.listed
  have hsize : 0 ≤ d₁.ds.bufferSize := by
    rw [hds]
    exact Int.le_trans hw.pos_nonneg hw.pos_le
  refine ⟨dsResetPacks d₁, .of_forall (q.length + 1) fun fuel hfuel => ?_, dsResetPacks_empty hsize⟩
  exact congrArg (Option.map dsResetPacks) (hfree fuel hfuel)

/-! ## Every safe run -/

/-- In every state a safe run reaches from an empty stream, everything is in order
and `ds_free_packs` makes the stream empty again.  A `demux_getc` that is not safe
delivers a byte of no packet and leaves `buffer_pos` behind `buffer_size`. -/
theorem demux_in_order [OfNat τ 0] {r : DemuxRun τ} (hd : d₀.Empty)
    (hr : Reachable DemuxSafeStep (fun s => s = DemuxRun.start d₀) r) :
    r.InOrder (dsTell d₀.ds) ∧ (∃ d', Returns (fun fuel => dsFreePacks fuel r.d) d' ∧ d'.Empty) ∧
      ∀ fills c d', ¬ (DemuxCall.getc fills).Safe r.d → demuxGetc fills r.d = some (c, d', []) →
        c = some none ∧ d'.ds.bufferSize < d'.ds.bufferPos := by
  have hinv : r.Inv (dsTell d₀.ds) := by
    refine hr.invariant ?_ fun s call t hs hst => hs.step hst
    rintro s rfl
    exact hd.inv
  refine ⟨hinv.inOrder, ?_⟩
  obtain ⟨xs, hholds, -⟩ := hinv
  refine ⟨dsFreePacks_empty hholds, ?_⟩
  intro fills c d' hbad hget
  rw [DemuxCall.Safe, not_or, Int.not_lt, not_not] at hbad
  exact demuxGetc_overruns hholds hbad.1 hbad.2 hget

/-- A demuxer with one audio stream, before the first call. -/
def audioDemuxer : Demuxer Int where
  ds := newDemuxerStream
  audio := .self
  video := .null
  videoParsed := false
  forceNi := false
  streamPts := none
  cells := fun _ => none
  fresh := 0

/-- The audio stream with one packet added. -/
def audioQueued (payload : List UInt8) : Demuxer Int :=
  (addNewPacket ⟨payload, none, none, none, 0, 0⟩ audioDemuxer).getD audioDemuxer

/-- The audio stream with one packet added and a byte read. -/
def audioRead (payload : List UInt8) : Demuxer Int :=
  ((demuxGetc [] (audioQueued payload)).map fun r => r.2.1).getD audioDemuxer

/-- A packet of two bytes added, and the first of them read. -/
theorem demux_in_order_getc :
    (⟨audioRead [7, 9], [7, 9], [some 7]⟩ : DemuxRun Int).InOrder 0 := by
  have hd : audioDemuxer.Empty := (newDemuxerStream_empty rfl).1
  have hadd : DemuxSafeStep (DemuxRun.start audioDemuxer)
      (.addPacket ⟨[7, 9], none, none, none, 0, 0⟩) ⟨audioQueued [7, 9], [7, 9], []⟩ :=
    ⟨trivial, .addPacket rfl⟩
  have hget : DemuxSafeStep ⟨audioQueued [7, 9], [7, 9], []⟩ (.getc [])
      ⟨audioRead [7, 9], [7, 9], [some 7]⟩ :=
    ⟨Or.inr (by decide), .getc (c := some (some 7)) rfl⟩
  exact (demux_in_order hd ⟨_, _, rfl, (Run.single hadd).tail hget⟩).1

/-- An empty packet added, and a byte read. -/
theorem demux_out_of_order : ∃ r : DemuxRun Int,
    Reachable DemuxStep (fun s => s = DemuxRun.start audioDemuxer) r ∧
      ¬ r.consumed <+: r.added.map some ∧ ¬ r.d.ds.bufferPos ≤ r.d.ds.bufferSize := by
  have hadd : DemuxStep (DemuxRun.start audioDemuxer)
      (.addPacket ⟨[], none, none, none, 0, 0⟩) ⟨audioQueued [], [], []⟩ := .addPacket rfl
  have hget : DemuxStep ⟨audioQueued [], [], []⟩ (.getc []) ⟨audioRead [], [], [none]⟩ :=
    .getc (c := some none) rfl
  exact ⟨_, ⟨_, _, rfl, (Run.single hadd).tail hget⟩, by decide, by decide⟩

end MPlayer
