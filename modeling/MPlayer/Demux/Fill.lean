import MPlayer.Demux.Queue

/-!
# Filling the window

`ds_fill_buffer` is called with nothing left in the window.  It takes the first
packet into the window, asking the demuxer for packets if there is none, or comes to
the end of the stream.  Either way no byte is lost: `Filled` lists what it may have
done.
-/

namespace MPlayer

open Lib

variable {τ : Type} {d d' : Demuxer τ} {q : List (Nat × List UInt8)} {v w : List UInt8}

/-! ## Taking a packet -/

theorem dsTakePacket_queue {a : Nat} (h : d.Queue ((a, v) :: q)) :
    ∃ d', dsTakePacket d = some d' ∧ d'.Queue q ∧ d'.ds.bufferPos = 0 ∧
      d'.ds.bufferSize = v.length ∧ d'.ds.buffer = v ∧ d'.ds.dpos = d.ds.dpos + v.length := by
  obtain ⟨p, hfirst, hp, hv, hlinked⟩ := h.linked.pop
  have hlen : p.len = v.length := by rw [PacketData.len, hv]
  have hnodup := h.linked.listed.nodup
  rw [List.map_cons, List.nodup_cons] at hnodup
  have htake : ∃ d', dsTakePacket d = some d' ∧ d'.cells = d.cells ∧ d'.fresh = d.fresh ∧
      d'.ds.first = p.next ∧ d'.ds.last = (if p.next = none then none else d.ds.last) ∧
      d'.ds.packs = d.ds.packs - 1 ∧ d'.ds.bytes = d.ds.bytes - p.len ∧
      d'.ds.current = some a ∧ d'.ds.bufferPos = 0 ∧ d'.ds.bufferSize = p.len ∧
      d'.ds.buffer = p.payload ∧ d'.ds.dpos = d.ds.dpos + p.len := by
    rw [dsTakePacket, hfirst]
    simp only [Option.bind_eq_bind, Option.bind_some, hp]
    exact ⟨_, rfl, rfl, rfl, rfl, rfl, rfl, rfl, rfl, rfl, rfl, rfl, rfl⟩
  obtain ⟨d', hd', hcells, hfresh, hfirst', hlast', hpacks, hbytes, hcurrent, hpos, hsize, hbuffer,
    hdpos⟩ := htake
  rw [hlen] at hbytes hsize hdpos
  refine ⟨d', hd', ⟨?_, ?_, ?_, ?_, ?_⟩, hpos, hsize, hbuffer.trans hv, hdpos⟩
  · rw [hcells, hfirst', hlast']
    exact hlinked
  · rw [hpacks, h.packs, List.length_cons]
    omega
  · simp only [hbytes, h.bytes, totalLength]
    omega
  · intro x hx
    rw [hfresh]
    exact h.old x (List.mem_cons_of_mem _ hx)
  · intro c hc
    rw [hcurrent] at hc
    cases hc
    rw [hfresh]
    exact ⟨h.old (a, v) List.mem_cons_self, hnodup.1⟩

/-- Freeing the current packet leaves the queue alone. -/
theorem freeCurrent_queue (h : d.Queue q) :
    (freeDemuxPacket d d.ds.current).Queue q ∧ (freeDemuxPacket d d.ds.current).ds = d.ds := by
  cases hc : d.ds.current with
  | none => exact ⟨h, rfl⟩
  | some c =>
    refine ⟨⟨h.linked.frame ?_, h.packs, h.bytes, h.old, h.current⟩, rfl⟩
    intro x hx
    refine Function.update_of_ne ?_ _ _
    rintro rfl
    exact (h.current x.1 hc).2 (List.mem_map_of_mem hx)

theorem dsCountFill_queue (h : d'.Queue q) : (dsCountFill d d').Queue q :=
  ⟨h.linked, h.packs, h.bytes, h.old, h.current⟩

theorem dsEndOfStream_queue (h : d.Queue q) : (dsEndOfStream d).Queue q :=
  ⟨h.linked, h.packs, h.bytes, h.old, h.current⟩

theorem dsEndOfStream_window : (dsEndOfStream d).Window [] :=
  ⟨Int.le_refl 0, Int.le_refl 0, rfl, rfl⟩

/-! ## The loop -/

/-- What a call of `ds_fill_buffer` did, with the packets of `ps` queued before and
`used` the answers it asked for: the window holds `w` and `q` is queued. -/
structure Filled (dpos : Int) (ps : List (List UInt8)) (used : List (DemuxFill τ)) (ok : Bool)
    (d : Demuxer τ) (w : List UInt8) (q : List (Nat × List UInt8)) : Prop where
  queue : d.Queue q
  window : d.Window w
  start : d.ds.bufferPos = 0
  tell : dsTell d.ds = dpos
  packets : (if ok then w :: q.map Prod.snd else q.map Prod.snd) = ps ++ payloads used
  next : (ps ++ payloads (used.filter fun f => f.ok)).head? = if ok then some w else none
  ended : ok = false → w = [] ∧ d.ds.eof = true
  asked : ok = true → ∀ f ∈ used, f.ok = true

theorem Demuxer.Queue.packs_ne_zero (h : d.Queue q) : d.ds.packs ≠ 0 ↔ q ≠ [] := by
  rw [h.packs, Ne, Ne, Int.natCast_eq_zero, List.length_eq_zero_iff]

theorem dsTakePacket_filled {a : Nat} (h : d.Queue ((a, v) :: q)) :
    ∃ d', dsTakePacket d = some d' ∧ Filled d.ds.dpos (v :: q.map Prod.snd) [] true d' v q := by
  obtain ⟨d', htake, hq, hpos, hsize, hbuffer, hdpos⟩ := dsTakePacket_queue h
  refine ⟨d', htake, hq, ?_, hpos, ?_, by simp, by simp, by simp, by simp⟩
  · refine ⟨Int.le_of_eq hpos.symm, ?_, ?_, ?_⟩
    · rw [hpos, hsize]
      exact Int.natCast_nonneg _
    · rw [hpos, hbuffer]
      rfl
    · rw [hpos, hsize, Int.sub_zero]
  · rw [dsTell, hdpos, hsize, hpos]
    omega

theorem dsFillLoop_filled : ∀ (fills : List (DemuxFill τ)) {d : Demuxer τ}
    {q : List (Nat × List UInt8)} {ok : Bool} {d' : Demuxer τ} {rest : List (DemuxFill τ)},
    d.Queue q → dsFillLoop fills d = some (ok, d', rest) →
    ∃ used w q', fills = used ++ rest ∧ Filled d.ds.dpos (q.map Prod.snd) used ok d' w q'
  | fills, d, (a, v) :: q, ok, d', rest, h, hloop => by
    have hpacks : d.ds.packs ≠ 0 := h.packs_ne_zero.mpr (List.cons_ne_nil _ _)
    obtain ⟨d₁, htake, hfilled⟩ := dsTakePacket_filled h
    rw [dsFillLoop.eq_def, if_pos hpacks, htake] at hloop
    cases hloop
    exact ⟨[], v, q, rfl, hfilled⟩
  | [], d, [], ok, d', rest, h, hloop => by
    have hpacks : ¬ d.ds.packs ≠ 0 := fun hne => h.packs_ne_zero.mp hne rfl
    rw [dsFillLoop.eq_def, if_neg hpacks] at hloop
    split at hloop
    · cases hloop
      exact ⟨[], [], [], rfl, dsEndOfStream_queue h, dsEndOfStream_window, rfl,
        by simp [dsTell, dsEndOfStream], rfl, rfl, fun _ => ⟨rfl, rfl⟩, by simp⟩
    · cases hloop
  | f :: fills, d, [], ok, d', rest, h, hloop => by
    have hpacks : ¬ d.ds.packs ≠ 0 := fun hne => h.packs_ne_zero.mp hne rfl
    obtain ⟨d₁, q₁, hfill, hq₁, hpayloads, hsame⟩ := demuxFillBuffer_queue f h
    rw [List.nil_append] at hq₁
    rw [dsFillLoop.eq_def, if_neg hpacks] at hloop
    simp only [hfill, Option.bind_some] at hloop
    split at hloop
    · cases hloop
      exact ⟨[], [], [], rfl, dsEndOfStream_queue h, dsEndOfStream_window, rfl,
        by simp [dsTell, dsEndOfStream], rfl, rfl, fun _ => ⟨rfl, rfl⟩, by simp⟩
    · cases hok : f.ok with
      | true =>
        rw [if_pos hok] at hloop
        obtain ⟨used, w, q', hused, hfilled⟩ :=
          dsFillLoop_filled fills (dsCountFill_queue (d := d) hq₁) hloop
        refine ⟨f :: used, w, q', by rw [hused, List.cons_append], hfilled.queue,
          hfilled.window, hfilled.start, hfilled.tell.trans hsame.dpos, ?_, ?_, hfilled.ended, ?_⟩
        · rw [hfilled.packets, hpayloads]
          simp
        · rw [← hfilled.next, hpayloads, List.filter_cons_of_pos hok]
          simp
        · intro hok' g hg
          rcases List.mem_cons.mp hg with rfl | hg
          · exact hok
          · exact hfilled.asked hok' g hg
      | false =>
        rw [if_neg (by rw [hok]; exact Bool.false_ne_true)] at hloop
        cases hloop
        refine ⟨[f], [], q₁, rfl, dsEndOfStream_queue hq₁, dsEndOfStream_window, rfl, ?_,
          hpayloads, ?_, fun _ => ⟨rfl, rfl⟩, by simp⟩
        · rw [← hsame.dpos]
          simp [dsTell, dsEndOfStream]
        · simp [hok]

/-- The loop ends if a packet is queued, or a call of the demuxer fails. -/
theorem dsFillLoop_returns : ∀ (fills : List (DemuxFill τ)) {d : Demuxer τ}
    {q : List (Nat × List UInt8)}, d.Queue q → (q ≠ [] ∨ ∃ f ∈ fills, f.ok = false) →
    ∃ r, dsFillLoop fills d = some r
  | fills, d, (a, v) :: q, h, _ => by
    have hpacks : d.ds.packs ≠ 0 := h.packs_ne_zero.mpr (List.cons_ne_nil _ _)
    obtain ⟨d₁, htake, -⟩ := dsTakePacket_filled h
    rw [dsFillLoop.eq_def, if_pos hpacks, htake]
    exact ⟨_, rfl⟩
  | [], d, [], h, hend => by
    rcases hend with hne | ⟨f, hf, -⟩
    · exact absurd rfl hne
    · cases hf
  | f :: fills, d, [], h, hend => by
    have hpacks : ¬ d.ds.packs ≠ 0 := fun hne => h.packs_ne_zero.mp hne rfl
    obtain ⟨d₁, q₁, hfill, hq₁, -, -⟩ := demuxFillBuffer_queue f h
    rw [List.nil_append] at hq₁
    rw [dsFillLoop.eq_def, if_neg hpacks]
    simp only [hfill, Option.bind_some]
    split
    · exact ⟨_, rfl⟩
    · cases hok : f.ok with
      | false => exact ⟨_, rfl⟩
      | true =>
        have hrest : ∃ f ∈ fills, f.ok = false := by
          obtain ⟨g, hg, hgok⟩ := hend.resolve_left fun hne => hne rfl
          rcases List.mem_cons.mp hg with rfl | hg
          · cases hok.symm.trans hgok
          · exact ⟨g, hg, hgok⟩
        exact dsFillLoop_returns fills (dsCountFill_queue (d := d) hq₁) (Or.inr hrest)

/-- The loop starts with the queue as it is. -/
theorem dsFillBuffer_eq (h : d.Queue q) (fills : List (DemuxFill τ)) :
    ∃ d₁, dsFillBuffer fills d = dsFillLoop fills d₁ ∧ d₁.Queue q ∧ d₁.ds.dpos = d.ds.dpos := by
  obtain ⟨hq, hds⟩ := freeCurrent_queue h
  have hdpos := congrArg DemuxStream.dpos hds
  refine ⟨_, rfl, ⟨hq.linked, hq.packs, hq.bytes, hq.old, fun p hp => ?_⟩, hdpos⟩
  cases hp

theorem dsFillBuffer_filled {fills rest : List (DemuxFill τ)} {ok : Bool} (h : d.Queue q)
    (hfill : dsFillBuffer fills d = some (ok, d', rest)) :
    ∃ used w q', fills = used ++ rest ∧ Filled d.ds.dpos (q.map Prod.snd) used ok d' w q' := by
  obtain ⟨d₁, heq, hq, hdpos⟩ := dsFillBuffer_eq h fills
  rw [heq] at hfill
  rw [← hdpos]
  exact dsFillLoop_filled fills hq hfill

theorem dsFillBuffer_returns {fills : List (DemuxFill τ)} (h : d.Queue q)
    (hend : q ≠ [] ∨ ∃ f ∈ fills, f.ok = false) : ∃ r, dsFillBuffer fills d = some r := by
  obtain ⟨d₁, heq, hq, -⟩ := dsFillBuffer_eq h fills
  rw [heq]
  exact dsFillLoop_returns fills hq hend

end MPlayer
