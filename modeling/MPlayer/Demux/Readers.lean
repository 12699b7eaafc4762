import MPlayer.Demux.Fill

/-!
# The readers of a stream

Each reader hands out the first of the unread bytes and leaves the rest:
`Demuxer.Delivers`.  `demux_getc` does so unless the window is used up and the
packet taken into it is empty, for then it reads behind the end of the packet.
-/

namespace MPlayer

open Lib

variable {τ : Type} {d d' : Demuxer τ} {fills rest : List (DemuxFill τ)} {xs w : List UInt8}

/-- The bytes of the packets that the answers add. -/
def addedBytes (fills : List (DemuxFill τ)) : List UInt8 := (payloads fills).flatten

@[simp] theorem addedBytes_nil : addedBytes ([] : List (DemuxFill τ)) = [] := rfl

@[simp] theorem addedBytes_append (fills fills' : List (DemuxFill τ)) :
    addedBytes (fills ++ fills') = addedBytes fills ++ addedBytes fills' := by
  rw [addedBytes, payloads_append, List.flatten_append]
  rfl

/-- From `d` with the unread bytes `xs`, and `ys` added meanwhile, `out` was handed
out, which led to `d'`.  A byte that is `none` was read outside of the packets. -/
def Demuxer.Delivers (d : Demuxer τ) (xs ys : List UInt8) (out : List (Option UInt8))
    (d' : Demuxer τ) : Prop :=
  ∃ zs, d'.Holds zs ∧ out ++ zs.map some = (xs ++ ys).map some ∧
    dsTell d'.ds = dsTell d.ds + out.length

/-! ## The window -/

theorem Demuxer.Window.used_up (h : d.Window w) (hpos : d.ds.bufferSize ≤ d.ds.bufferPos) :
    w = [] ∧ dsTell d.ds = d.ds.dpos := by
  have hlength := h.length_eq
  have hle := h.pos_le
  refine ⟨List.eq_nil_of_length_eq_zero (by omega), ?_⟩
  rw [dsTell]
  omega

/-- What `ds_fill_buffer` does to the unread bytes. -/
theorem dsFillBuffer_holds {ok : Bool} (h : d.Holds xs) (hpos : d.ds.bufferSize ≤ d.ds.bufferPos)
    (hfill : dsFillBuffer fills d = some (ok, d', rest)) :
    ∃ used w, fills = used ++ rest ∧ d'.Holds (xs ++ addedBytes used) ∧ d'.Window w ∧
      d'.ds.bufferPos = 0 ∧ dsTell d'.ds = dsTell d.ds ∧ (ok = false → d'.ds.eof = true) ∧
      (rest = [] → d.nextPayload fills = if ok then some w else none) := by
  obtain ⟨v, q, hv, hq, rfl⟩ := h
  obtain ⟨rfl, htell⟩ := hv.used_up hpos
  obtain ⟨used, w, q', hused, hfilled⟩ := dsFillBuffer_filled hq hfill
  refine ⟨used, w, hused, ⟨w, q', hfilled.window, hfilled.queue, ?_⟩, hfilled.window,
    hfilled.start, hfilled.tell.trans htell.symm, fun hok => (hfilled.ended hok).2, ?_⟩
  · rw [List.nil_append, addedBytes, ← List.flatten_append, ← hfilled.packets]
    cases ok with
    | true => rfl
    | false => rw [(hfilled.ended rfl).1]; rfl
  · intro hrest
    rw [hrest, List.append_nil] at hused
    rw [hq.nextPayload_eq, hused, hfilled.next]

/-- Reading `x` bytes of the window. -/
theorem dsAdvance_holds {x : Int} (h : d.Holds xs) (hx : 0 ≤ x)
    (hle : x ≤ d.ds.bufferSize - d.ds.bufferPos) :
    ∃ ys, dsWindow d.ds x ++ ys = xs ∧ (dsAdvance d x).Holds ys ∧
      ((dsWindow d.ds x).length : Int) = x ∧
      dsTell (dsAdvance d x).ds = dsTell d.ds + x := by
  obtain ⟨w, q, hw, hq, rfl⟩ := h
  have hpos := hw.pos_nonneg
  have hlength := hw.length_eq
  have hwindow : dsWindow d.ds x = w.take x.toNat := by rw [dsWindow, hw.drop_eq]
  refine ⟨w.drop x.toNat ++ (q.map Prod.snd).flatten, ?_, ⟨w.drop x.toNat, q, ?_, ?_, rfl⟩, ?_, ?_⟩
  · rw [hwindow, ← List.append_assoc, List.take_append_drop]
  · have hsum : (d.ds.bufferPos + x).toNat = d.ds.bufferPos.toNat + x.toNat := by omega
    refine ⟨Int.add_nonneg hpos hx, ?_, ?_, ?_⟩
    · simp only [dsAdvance]
      omega
    · simp only [dsAdvance]
      rw [← hw.drop_eq, List.drop_drop, hsum]
    · rw [List.length_drop]
      simp only [dsAdvance]
      omega
  · exact ⟨hq.linked, hq.packs, hq.bytes, hq.old, hq.current⟩
  · rw [hwindow, List.length_take]
    omega
  · simp only [dsTell, dsAdvance]
    omega

/-! ## `demux_read_data` -/

theorem demuxReadData_holds : ∀ (fuel : Nat) {fills rest : List (DemuxFill τ)} {d d' : Demuxer τ}
    {len : Int} {xs mem : List UInt8}, d.Holds xs →
    demuxReadData fuel fills d len = some (mem, d', rest) →
    ∃ used, fills = used ++ rest ∧ d.Delivers xs (addedBytes used) (mem.map some) d' ∧
      (mem.length : Int) ≤ max len 0 ∧ ((mem.length : Int) < len → d'.ds.eof = true)
  | 0, _, _, _, _, _, _, _, _, hread => by cases hread
  | fuel + 1, fills, rest, d, d', len, xs, mem, h, hread => by
    have hle : d.ds.bufferPos ≤ d.ds.bufferSize := by
      obtain ⟨w, q, hw, -⟩ := h
      exact hw.pos_le
    rw [demuxReadData] at hread
    by_cases hlen : 0 < len
    · rw [if_pos hlen] at hread
      by_cases hx : d.ds.bufferSize - d.ds.bufferPos = 0
      · rw [if_pos hx] at hread
        obtain ⟨⟨ok, d₁, fills₁⟩, hfill, hnext⟩ := Option.bind_eq_some_iff.mp hread
        obtain ⟨used, w, hused, hholds, -, -, htell, heof, -⟩ :=
          dsFillBuffer_holds h (by omega) hfill
        cases ok with
        | false =>
          cases hnext
          refine ⟨used, hused, ⟨_, hholds, rfl, ?_⟩, ?_, fun _ => heof rfl⟩
          · exact htell.trans (Int.add_zero _).symm
          · exact Int.le_max_right _ _
        | true =>
          obtain ⟨used', hused', ⟨zs, hzs, hout, htell'⟩, hmax, hshort⟩ :=
            demuxReadData_holds fuel hholds hnext
          refine ⟨used ++ used', ?_, ⟨zs, hzs, ?_, ?_⟩, hmax, hshort⟩
          · rw [hused, hused', List.append_assoc]
          · rw [hout, addedBytes_append, List.append_assoc]
          · rw [htell', htell]
      · rw [if_neg hx, if_neg (by omega)] at hread
        obtain ⟨⟨mem₁, d₁, fills₁⟩, hnext, heq⟩ := Option.map_eq_some_iff.mp hread
        have hmin : min (d.ds.bufferSize - d.ds.bufferPos) len ≤ len := Int.min_le_right _ _
        obtain ⟨ys, hys, hholds, hcount, htell⟩ := dsAdvance_holds h
          (x := min (d.ds.bufferSize - d.ds.bufferPos) len) (by omega) (Int.min_le_left _ _)
        obtain ⟨used, hused, ⟨zs, hzs, hout, htell'⟩, hmax, hshort⟩ :=
          demuxReadData_holds fuel hholds hnext
        cases heq
        refine ⟨used, hused, ⟨zs, hzs, ?_, ?_⟩, ?_, ?_⟩
        · rw [← hys, List.map_append, List.append_assoc, hout, List.append_assoc, ← List.map_append]
        · rw [htell', htell, List.length_map, List.length_map, List.length_append]
          omega
        · rw [List.length_append]
          omega
        · intro hlt
          refine hshort ?_
          rw [List.length_append] at hlt
          omega
    · rw [if_neg hlen] at hread
      cases hread
      refine ⟨[], rfl, ⟨xs, h, ?_, ?_⟩, ?_, ?_⟩
      · rw [addedBytes_nil, List.append_nil]
        rfl
      · exact (Int.add_zero _).symm
      · exact Int.le_max_right _ _
      · intro hlt
        exact absurd (Int.lt_of_le_of_lt (Int.natCast_nonneg _) hlt) hlen

/-- If a call of the demuxer fails sooner or later, `demux_read_data` returns: each
packet taken into the window is one less to take, also an empty one. -/
theorem demuxReadData_returns : ∀ (n : Nat) (len : Int) {fills : List (DemuxFill τ)}
    {d : Demuxer τ} {w : List UInt8} {q : List (Nat × List UInt8)}, d.Window w → d.Queue q →
    (∃ f ∈ fills, f.ok = false) → len.toNat + q.length + (payloads fills).length < n →
    ∃ r, ∀ fuel, n ≤ fuel → demuxReadData fuel fills d len = some r
  | 0, _, _, _, _, _, _, _, _, hn => absurd hn (Nat.not_lt_zero _)
  | n + 1, len, fills, d, w, q, hw, hq, hend, hn => by
    have hpos := hw.pos_nonneg
    have hle := hw.pos_le
    by_cases hlen : 0 < len
    · by_cases hx : d.ds.bufferSize - d.ds.bufferPos = 0
      · obtain ⟨⟨ok, d₁, rest⟩, hfill⟩ := dsFillBuffer_returns hq (Or.inr hend)
        obtain ⟨used, v, q₁, hused, hfilled⟩ := dsFillBuffer_filled hq hfill
        cases ok with
        | false =>
          refine ⟨([], d₁, rest), fun fuel hfuel => ?_⟩
          obtain ⟨m, rfl⟩ := Nat.exists_eq_add_of_lt hfuel
          rw [demuxReadData, if_pos hlen, if_pos hx, hfill]
          rfl
        | true =>
          have hrest : ∃ f ∈ rest, f.ok = false := by
            obtain ⟨f, hf, hfok⟩ := hend
            rw [hused, List.mem_append] at hf
            rcases hf with hf | hf
            · cases (hfilled.asked rfl f hf).symm.trans hfok
            · exact ⟨f, hf, hfok⟩
          have hlength := congrArg List.length hfilled.packets
          have hadded := congrArg (fun fs => (payloads fs).length) hused
          simp only [if_true, List.length_cons, List.length_map, List.length_append,
            payloads_append] at hlength hadded
          obtain ⟨r, hr⟩ := demuxReadData_returns n len hfilled.window hfilled.queue hrest
            (by omega)
          refine ⟨r, fun fuel hfuel => ?_⟩
          obtain ⟨m, rfl⟩ := Nat.exists_eq_add_of_lt hfuel
          rw [demuxReadData, if_pos hlen, if_pos hx, hfill]
          exact hr (n + m) (Nat.le_add_right n m)
      · obtain ⟨ys, hys, ⟨w₁, q₁, hw₁, hq₁, -⟩, -, -⟩ := dsAdvance_holds ⟨w, q, hw, hq, rfl⟩
          (x := min (d.ds.bufferSize - d.ds.bufferPos) len) (by omega) (Int.min_le_left _ _)
        have hsame : (q₁.length : Int) = q.length := hq₁.packs.symm.trans hq.packs
        obtain ⟨r, hr⟩ := demuxReadData_returns n
          (len - min (d.ds.bufferSize - d.ds.bufferPos) len) hw₁ hq₁ hend (by omega)
        refine ⟨(dsWindow d.ds (min (d.ds.bufferSize - d.ds.bufferPos) len) ++ r.1, r.2),
          fun fuel hfuel => ?_⟩
        obtain ⟨m, rfl⟩ := Nat.exists_eq_add_of_lt hfuel
        rw [demuxReadData, if_pos hlen, if_neg hx, if_neg (by omega)]
        exact congrArg (Option.map _) (hr (n + m) (Nat.le_add_right n m))
    · refine ⟨([], d, fills), fun fuel hfuel => ?_⟩
      obtain ⟨m, rfl⟩ := Nat.exists_eq_add_of_lt hfuel
      rw [demuxReadData, if_neg hlen]

/-! ## `demux_getc` -/

/-- The byte at the start of a window that is not empty, and what follows. -/
theorem dsGetByte_holds (h : d.Holds xs) (hpos : d.ds.bufferPos < d.ds.bufferSize) :
    ∃ b ys, d.ds.buffer[d.ds.bufferPos.toNat]? = some b ∧ b :: ys = xs ∧
      (dsAdvance d 1).Holds ys ∧ dsTell (dsAdvance d 1).ds = dsTell d.ds + 1 := by
  obtain ⟨ys, hys, hholds, hcount, htell⟩ := dsAdvance_holds h (x := 1) (by omega) (by omega)
  cases hbyte : d.ds.buffer[d.ds.bufferPos.toNat]? with
  | none =>
    have hlength := List.getElem?_eq_none_iff.mp hbyte
    rw [dsWindow, List.drop_eq_nil_of_le hlength] at hcount
    cases hcount
  | some b =>
    refine ⟨b, ys, rfl, ?_, hholds, htell⟩
    obtain ⟨hlt, hb⟩ := List.getElem?_eq_some_iff.mp hbyte
    rw [← hys, dsWindow, List.drop_eq_getElem_cons hlt, hb]
    rfl

/-- A byte read from a window that is not used up. -/
theorem dsGetByte_delivers (h : d.Holds xs) (hpos : d.ds.bufferPos < d.ds.bufferSize) :
    d.Delivers xs [] [d.ds.buffer[d.ds.bufferPos.toNat]?] (dsAdvance d 1) := by
  obtain ⟨b, ys, hb, hys, hholds, htell⟩ := dsGetByte_holds h hpos
  refine ⟨ys, hholds, ?_, htell⟩
  rw [hb, ← hys, List.append_nil]
  rfl

theorem demuxGetc_delivers {c : Option (Option UInt8)} (h : d.Holds xs)
    (hsafe : d.ds.bufferPos < d.ds.bufferSize ∨ d.nextPayload fills ≠ some [])
    (hget : demuxGetc fills d = some (c, d', [])) :
    d.Delivers xs (addedBytes fills) c.toList d' := by
  rw [demuxGetc] at hget
  by_cases hpos : d.ds.bufferPos < d.ds.bufferSize
  · rw [if_pos hpos] at hget
    cases hget
    exact dsGetByte_delivers h hpos
  · rw [if_neg hpos] at hget
    obtain ⟨⟨ok, d₁, rest⟩, hfill, heq⟩ := Option.map_eq_some_iff.mp hget
    obtain ⟨used, w, hused, hholds, hw, hstart, htell, -, hnext⟩ :=
      dsFillBuffer_holds h (Int.not_lt.mp hpos) hfill
    cases ok with
    | false =>
      cases heq
      rw [List.append_nil] at hused
      rw [hused]
      exact ⟨_, hholds, rfl, htell.trans (Int.add_zero _).symm⟩
    | true =>
      cases heq
      rw [List.append_nil] at hused
      have hw_ne : w ≠ [] := by
        rintro rfl
        exact hsafe.elim hpos fun hne => hne (hnext rfl)
      have hlength := hw.length_eq
      have hwpos := List.length_pos_iff.mpr hw_ne
      obtain ⟨zs, hzs, hout, htell'⟩ := dsGetByte_delivers hholds (by omega)
      refine ⟨zs, hzs, ?_, ?_⟩
      · rw [hused]
        rw [List.append_nil] at hout
        exact hout
      · rw [htell', htell]
        rfl

/-- A byte read from an empty packet is not one of it, and `buffer_pos` passes
`buffer_size`. -/
theorem demuxGetc_overruns {c : Option (Option UInt8)} (h : d.Holds xs)
    (hpos : d.ds.bufferSize ≤ d.ds.bufferPos) (hnext : d.nextPayload fills = some [])
    (hget : demuxGetc fills d = some (c, d', [])) :
    c = some none ∧ d'.ds.bufferSize < d'.ds.bufferPos := by
  rw [demuxGetc, if_neg (Int.not_lt.mpr hpos)] at hget
  obtain ⟨⟨ok, d₁, rest⟩, hfill, heq⟩ := Option.map_eq_some_iff.mp hget
  obtain ⟨used, w, hused, hholds, hw, hstart, htell, -, hnext'⟩ := dsFillBuffer_holds h hpos hfill
  cases ok with
  | false =>
    cases heq
    have hsome := hnext' rfl
    rw [hnext] at hsome
    cases hsome
  | true =>
    cases heq
    have hsome := hnext' rfl
    rw [hnext] at hsome
    cases hsome
    have hdrop := hw.drop_eq
    have hlength := hw.length_eq
    refine ⟨?_, ?_⟩
    · rw [List.getElem?_eq_none (List.drop_eq_nil_iff.mp hdrop)]
    · simp only [dsAdvance]
      rw [List.length_nil] at hlength
      omega

/-! ## `ds_get_packet` -/

/-- The window handed out whole. -/
theorem dsWindow_delivers (h : d.Holds xs) :
    d.Delivers xs [] ((dsWindow d.ds (d.ds.bufferSize - d.ds.bufferPos)).map some)
      (dsAdvance d (d.ds.bufferSize - d.ds.bufferPos)) := by
  have hle : 0 ≤ d.ds.bufferSize - d.ds.bufferPos := by
    obtain ⟨w, q, hw, -⟩ := h
    have := hw.pos_le
    omega
  obtain ⟨ys, hys, hholds, hcount, htell⟩ := dsAdvance_holds h hle (Int.le_refl _)
  refine ⟨ys, hholds, ?_, ?_⟩
  · rw [← List.map_append, hys, List.append_nil]
  · rw [htell, List.length_map, hcount]

theorem dsGetPacket_delivers {len : Int} {data : List UInt8} (h : d.Holds xs)
    (hget : dsGetPacket fills d = some ((len, data), d', [])) :
    d.Delivers xs (addedBytes fills) (data.map some) d' := by
  rw [dsGetPacket] at hget
  by_cases hpos : d.ds.bufferPos ≥ d.ds.bufferSize
  · rw [if_pos hpos] at hget
    obtain ⟨⟨ok, d₁, rest⟩, hfill, heq⟩ := Option.map_eq_some_iff.mp hget
    obtain ⟨used, w, hused, hholds, -, -, htell, -, -⟩ := dsFillBuffer_holds h hpos hfill
    cases ok with
    | false =>
      cases heq
      rw [List.append_nil] at hused
      rw [hused]
      exact ⟨_, hholds, rfl, htell.trans (Int.add_zero _).symm⟩
    | true =>
      cases heq
      rw [List.append_nil] at hused
      obtain ⟨zs, hzs, hout, htell'⟩ := dsWindow_delivers hholds
      refine ⟨zs, hzs, ?_, ?_⟩
      · rw [hused]
        rw [List.append_nil] at hout
        exact hout
      · rw [htell', htell]
  · rw [if_neg hpos] at hget
    cases hget
    exact dsWindow_delivers h

end MPlayer
