import MPlayer.Demux.Pattern
import MPlayer.Demux.Integrity

/-!
# The search over packets

`Brings` lists the packets that the following calls of `ds_fill_buffer` take, until one fails.
With the bytes left in the window these are the data that `demux_pattern_3` searches.  Each
turn of its loop reads on in the window or takes a packet, so it returns, and
`SearchStops` holds of what it read.
-/

namespace MPlayer

open Lib

variable {τ : Type} {d d' : Demuxer τ} {fills rest : List (DemuxFill τ)} {w : List UInt8}
  {ps : List (List UInt8)} {q : List (Nat × List UInt8)}

/-! ## Reading in the window does not change what comes next -/

theorem addNewPacket_advance (p : PacketData τ) (d : Demuxer τ) (x : Int) :
    addNewPacket p (dsAdvance d x) = (addNewPacket p d).map fun d => dsAdvance d x := by
  simp only [addNewPacket, dsAddPacket, dsAddPacketInternal, newDemuxPacket, dsAdvance,
    Function.update_self, Option.bind_eq_bind, Option.bind_some]
  cases d.ds.last with
  | none => rfl
  | some last =>
    simp only []
    cases Function.update d.cells d.fresh (some ({ p with next := none } : DemuxPacket τ)) last with
    | none => rfl
    | some q => rfl

theorem addNewPackets_advance : ∀ (ps : List (PacketData τ)) (d : Demuxer τ) (x : Int),
    addNewPackets ps (dsAdvance d x) = (addNewPackets ps d).map fun d => dsAdvance d x
  | [], _, _ => rfl
  | p :: ps, d, x => by
    rw [addNewPackets, addNewPackets, addNewPacket_advance]
    cases addNewPacket p d with
    | none => rfl
    | some d₁ => exact addNewPackets_advance ps d₁ x

theorem demuxFillBuffer_advance (f : DemuxFill τ) (d : Demuxer τ) (x : Int) :
    demuxFillBuffer f (dsAdvance d x) = (demuxFillBuffer f d).map fun d => dsAdvance d x := by
  rw [demuxFillBuffer, demuxFillBuffer, addNewPackets_advance]
  cases addNewPackets f.packets d with
  | none => rfl
  | some d₁ => rfl

theorem dsTakePacket_advance (d : Demuxer τ) (x : Int) :
    dsTakePacket (dsAdvance d x) = dsTakePacket d := rfl

theorem DemuxSlot.packs_advance (slot : DemuxSlot) (d : Demuxer τ) (x : Int) :
    slot.packs (dsAdvance d x).ds = slot.packs d.ds := by
  cases slot with
  | null | self | other packs bytes => rfl

theorem DemuxSlot.bytes_advance (slot : DemuxSlot) (d : Demuxer τ) (x : Int) :
    slot.bytes (dsAdvance d x).ds = slot.bytes d.ds := by
  cases slot with
  | null | self | other packs bytes => rfl

theorem dsGivesUp_advance (d : Demuxer τ) (x : Int) : dsGivesUp (dsAdvance d x) = dsGivesUp d := by
  rw [dsGivesUp, dsGivesUp, DemuxSlot.packs_advance, DemuxSlot.packs_advance,
    DemuxSlot.bytes_advance, DemuxSlot.bytes_advance]
  rfl

theorem dsCountFill_advance (d d' : Demuxer τ) (x : Int) :
    dsCountFill (dsAdvance d x) (dsAdvance d' x) = dsAdvance (dsCountFill d d') x := by
  rw [dsCountFill, dsCountFill]
  simp only [DemuxSlot.packs_advance, DemuxSlot.bytes_advance]
  rfl

theorem dsFillLoop_advance : ∀ (fills : List (DemuxFill τ)) (d : Demuxer τ) (x : Int),
    dsFillLoop fills (dsAdvance d x) = dsFillLoop fills d
  | [], d, x => by
    rw [dsFillLoop.eq_def, dsFillLoop.eq_def, dsGivesUp_advance, dsTakePacket_advance]
    rfl
  | f :: fills, d, x => by
    rw [dsFillLoop.eq_def, dsFillLoop.eq_def, dsGivesUp_advance, dsTakePacket_advance]
    simp only [demuxFillBuffer_advance]
    cases hfill : demuxFillBuffer f d with
    | none => rfl
    | some d₁ =>
      simp only [Option.map_some, Option.bind_some, dsCountFill_advance]
      rw [dsFillLoop_advance fills (dsCountFill d d₁) x]
      rfl

/-- The packet that the window is in is freed and forgotten. -/
def dropCurrent (d : Demuxer τ) : Demuxer τ :=
  { freeDemuxPacket d d.ds.current with
    ds := { (freeDemuxPacket d d.ds.current).ds with current := none } }

theorem dropCurrent_advance (d : Demuxer τ) (x : Int) :
    dropCurrent (dsAdvance d x) = dsAdvance (dropCurrent d) x := by
  obtain ⟨ds, audio, video, videoParsed, forceNi, streamPts, cells, fresh⟩ := d
  obtain ⟨bufferPos, bufferSize, buffer, pts, ptsBytes, eof, pos, dpos, packNo, flags, fillCount,
    packs, bytes, first, last, current, asfPacket⟩ := ds
  cases current with
  | none => rfl
  | some c => rfl

theorem dsFillBuffer_advance (fills : List (DemuxFill τ)) (d : Demuxer τ) (x : Int) :
    dsFillBuffer fills (dsAdvance d x) = dsFillBuffer fills d := by
  have hloop : ∀ d : Demuxer τ, dsFillBuffer fills d = dsFillLoop fills (dropCurrent d) :=
    fun _ => rfl
  rw [hloop, hloop, dropCurrent_advance, dsFillLoop_advance]

/-! ## The packets to come -/

/-- The packets that the calls of `ds_fill_buffer` to come take, until one fails. -/
inductive Brings : List (DemuxFill τ) → Demuxer τ → List (List UInt8) → Prop
  | stop {fills rest : List (DemuxFill τ)} {d d' : Demuxer τ} :
      dsFillBuffer fills d = some (false, d', rest) → Brings fills d []
  | more {fills rest : List (DemuxFill τ)} {d d' : Demuxer τ} {ps : List (List UInt8)} :
      dsFillBuffer fills d = some (true, d', rest) → Brings rest d' ps →
      Brings fills d (d'.ds.buffer :: ps)

theorem Brings.advance (h : Brings fills d ps) (x : Int) : Brings fills (dsAdvance d x) ps := by
  cases h with
  | stop hfill =>
    rw [← dsFillBuffer_advance fills d x] at hfill
    exact .stop hfill
  | more hfill hbrings =>
    rw [← dsFillBuffer_advance fills d x] at hfill
    exact .more hfill hbrings

/-- A stream in order, with `w` left in the window and the packets `ps` to come.  At the end of
the stream nothing is left in the window. -/
structure Supplies (fills : List (DemuxFill τ)) (d : Demuxer τ) (w : List UInt8)
    (ps : List (List UInt8)) : Prop where
  window : d.Window w
  queue : ∃ q, d.Queue q
  ended : d.ds.eof = true → w = []
  brings : Brings fills d ps

/-! ## One turn -/

theorem dsFillLoop_eof : ∀ (fills : List (DemuxFill τ)) {d d' : Demuxer τ}
    {rest : List (DemuxFill τ)}, dsFillLoop fills d = some (true, d', rest) → d'.ds.eof = false
  | fills, d, d', rest, h => by
    rw [dsFillLoop.eq_def] at h
    split at h
    case isTrue =>
      obtain ⟨d₁, htake, heq⟩ := Option.map_eq_some_iff.mp h
      cases heq
      rw [dsTakePacket] at htake
      obtain ⟨a, -, htake⟩ := Option.bind_eq_some_iff.mp htake
      obtain ⟨p, -, htake⟩ := Option.bind_eq_some_iff.mp htake
      cases htake
      rfl
    case isFalse =>
      split at h
      case isTrue => cases h
      case isFalse =>
        cases fills with
        | nil => cases h
        | cons f fills =>
          obtain ⟨d₁, -, hnext⟩ := Option.bind_eq_some_iff.mp h
          split at hnext
          case isTrue => exact dsFillLoop_eof fills hnext
          case isFalse => cases hnext

/-- A call of `ds_fill_buffer` with nothing left in the window, as the packets to come say. -/
theorem Supplies.fill (h : Supplies fills d [] ps) :
    ∃ ok d' rest, dsFillBuffer fills d = some (ok, d', rest) ∧ d'.ds.eof = !ok ∧
      dsTell d'.ds = dsTell d.ds ∧
      ((ok = false ∧ ps = [] ∧ d'.Window []) ∨
        ∃ p ps', ok = true ∧ ps = p :: ps' ∧ Supplies rest d' p ps') := by
  obtain ⟨q, hq⟩ := h.queue
  have hused : dsTell d.ds = d.ds.dpos :=
    (h.window.used_up (by have := h.window.length_eq; rw [List.length_nil] at this; omega)).2
  cases h.brings with
  | @stop _ rest _ d' hfill =>
    obtain ⟨used, w, q', -, hfilled⟩ := dsFillBuffer_filled hq hfill
    obtain ⟨rfl, heof⟩ := hfilled.ended rfl
    exact ⟨false, d', rest, hfill, heof, hfilled.tell.trans hused.symm,
      Or.inl ⟨rfl, rfl, hfilled.window⟩⟩
  | @more _ rest _ d' ps' hfill hbrings =>
    obtain ⟨used, w, q', -, hfilled⟩ := dsFillBuffer_filled hq hfill
    have heof : d'.ds.eof = false := dsFillLoop_eof fills hfill
    have hw : w = d'.ds.buffer := by
      rw [← hfilled.window.drop_eq, hfilled.start]
      rfl
    refine ⟨true, d', rest, hfill, heof, hfilled.tell.trans hused.symm,
      Or.inr ⟨_, ps', rfl, rfl, hw ▸ hfilled.window, ⟨q', hfilled.queue⟩, fun hne => ?_, hbrings⟩⟩
    rw [heof] at hne
    cases hne

/-- Reading on in the window. -/
theorem Supplies.advance (h : Supplies fills d w ps) {n : Nat} (hn : n ≤ w.length)
    (heof : d.ds.eof = false) :
    Supplies fills (dsAdvance d n) (w.drop n) ps ∧ dsTell (dsAdvance d n).ds = dsTell d.ds + n ∧
      dsWindow d.ds n = w.take n := by
  obtain ⟨q, hq⟩ := h.queue
  obtain ⟨hpos, hle, hdrop, hlength⟩ := h.window
  refine ⟨⟨⟨?_, ?_, ?_, ?_⟩, ⟨q, hq.linked, hq.packs, hq.bytes, hq.old, hq.current⟩, ?_,
    h.brings.advance n⟩, ?_, ?_⟩
  · exact Int.add_nonneg hpos (Int.natCast_nonneg n)
  · simp only [dsAdvance]
    omega
  · have hsum : (d.ds.bufferPos + n).toNat = d.ds.bufferPos.toNat + n := by omega
    simp only [dsAdvance]
    rw [← hdrop, List.drop_drop, hsum]
  · rw [List.length_drop]
    simp only [dsAdvance]
    omega
  · intro hne
    exact absurd (heof.symm.trans hne) (by decide)
  · simp only [dsTell, dsAdvance]
    omega
  · rw [dsWindow, hdrop, Int.toNat_natCast]

/-- `demux_read_data` of no more than is left in the window. -/
theorem demuxReadData_window (fuel : Nat) (fills : List (DemuxFill τ)) (hw : d.Window w) {len : Int}
    (hlen : len ≤ w.length) :
    demuxReadData (fuel + 2) fills d len =
      some (w.take len.toNat, dsAdvance d len.toNat, fills) := by
  obtain ⟨hpos, hle, hdrop, hlength⟩ := hw
  rw [demuxReadData]
  by_cases h : 0 < len
  · have hmin : min (d.ds.bufferSize - d.ds.bufferPos) len = len := by omega
    have hdone : demuxReadData (fuel + 1) fills (dsAdvance d len) (len - len) =
        some ([], dsAdvance d len, fills) := by
      rw [demuxReadData, if_neg (by omega)]
    rw [if_pos h, if_neg (by omega), if_neg (by omega), hmin]
    simp only [hdone, Option.map_some, dsWindow, hdrop, List.append_nil,
      Int.toNat_of_nonneg (Int.le_of_lt h)]
  · have hzero : len.toNat = 0 := Int.toNat_of_nonpos (Int.not_lt.mp h)
    rw [if_neg h, hzero, List.take_zero, dsAdvance]
    simp only [Int.natCast_zero, Int.add_zero]

/-- A turn with bytes left in the window. -/
theorem patternTurn_scan (fuel : Nat) (h : Supplies fills d w ps) (hw : w ≠ []) (maxlen : Int)
    (pat head : UInt32) (totalLen : Int) :
    patternTurn (fuel + 2) fills d maxlen pat head totalLen =
      let n := (scanWindow pat head w).2
      let len := if maxlen < totalLen + n then maxlen - totalLen else n
      some (w.take len.toNat, (scanWindow pat head w).1, dsAdvance d len.toNat, fills) := by
  have hpos := List.length_pos_iff.mpr hw
  have hlength := h.window.length_eq
  have hscan : dsWindow d.ds (d.ds.bufferSize - d.ds.bufferPos) = w := by
    rw [dsWindow, h.window.drop_eq, ← hlength, Int.toNat_natCast, List.take_length]
  have hle := (scanWindow_spec pat head w).1
  rw [patternTurn, if_neg (by omega), hscan]
  simp only []
  rw [demuxReadData_window fuel fills h.window (by split <;> omega)]
  rfl

/-- A turn with nothing left in the window. -/
theorem patternTurn_fill {fuel : Nat} {ok : Bool} (h : Supplies fills d [] ps) (maxlen : Int)
    (pat head : UInt32) (totalLen : Int) (hfill : dsFillBuffer fills d = some (ok, d', rest)) :
    patternTurn fuel fills d maxlen pat head totalLen = some ([], head, d', rest) := by
  have hlength := h.window.length_eq
  rw [List.length_nil] at hlength
  rw [patternTurn, if_pos (by omega), hfill]
  rfl

/-! ## The search -/

/-- What the search looked at in a window, and that it is not there before the end of it. -/
theorem scanWindow_unseen {pattern : UInt32} {seen w data : List UInt8} {n : Nat}
    (hdata : seen ++ w <+: data)
    (hn : n = (scanWindow (pattern &&& 0xffffff00) (headAfter seen) w).2)
    (hseen : ∀ e ≤ seen.length, ¬ PatternAt pattern data e) :
    (scanWindow (pattern &&& 0xffffff00) (headAfter seen) w).1 = headAfter (seen ++ w.take n) ∧
      ∀ e < (seen ++ w.take n).length, ¬ PatternAt pattern data e := by
  obtain ⟨hle, hhead, hfirst, -, -⟩ := scanWindow_spec (pattern &&& 0xffffff00) (headAfter seen) w
  rw [← hn] at hle hhead hfirst
  refine ⟨by rw [headAfter_append]; exact hhead, fun e he hat => ?_⟩
  rw [List.length_append, List.length_take_of_le hle] at he
  by_cases hbefore : e ≤ seen.length
  · exact hseen e hbefore hat
  · refine hfirst (e - seen.length) (by omega) (by omega) ?_
    obtain ⟨rest, rfl⟩ := hdata
    have htake : (seen ++ w ++ rest).take e = seen ++ w.take (e - seen.length) := by
      rw [List.append_assoc, List.take_append, List.take_of_length_le (by omega),
        List.take_append_of_le_length (by omega)]
    rw [← headAfter_append, ← htake]
    exact hat.head_eq

/-- The search stopped after it read `mem` behind `seen`. -/
structure PatternDone (pattern : UInt32) (data : List UInt8) (maxlen : Int) (last : Nat)
    (tell : Int) (seen mem : List UInt8) (head : UInt32) (d : Demuxer τ)
    (rest : List (DemuxFill τ)) : Prop where
  stops : ∃ looked, SearchStops pattern data maxlen last head (seen ++ mem) looked
  tell : dsTell d.ds = tell + mem.length
  left : ∃ w ps, d.Window w ∧ (d.ds.eof = false → Brings rest d ps) ∧
    data = seen ++ mem ++ (w ++ ps.flatten)

theorem patternLoop_stop {maxlen : Int} {pat head head' : UInt32} {totalLen : Int} {fuel : Nat}
    {mem : List UInt8} (hturn : patternTurn fuel fills d maxlen pat head totalLen =
      some (mem, head', d', rest))
    (hstop : patternAgain maxlen pat head' (totalLen + mem.length) d'.ds.eof = false) :
    patternLoop maxlen pat (fuel + 1) fills d head totalLen = some (mem, head', d', rest) := by
  rw [patternLoop, hturn]
  simp only [Option.bind_some, hstop, Bool.false_eq_true, if_false]

theorem patternLoop_again {maxlen : Int} {pat head head' : UInt32} {totalLen : Int} {fuel : Nat}
    {mem : List UInt8} (hturn : patternTurn fuel fills d maxlen pat head totalLen =
      some (mem, head', d', rest))
    (hagain : patternAgain maxlen pat head' (totalLen + mem.length) d'.ds.eof = true) :
    patternLoop maxlen pat (fuel + 1) fills d head totalLen =
      (patternLoop maxlen pat fuel rest d' head' (totalLen + mem.length)).map
        fun (mem', rest) => (mem ++ mem', rest) := by
  rw [patternLoop, hturn]
  simp only [Option.bind_some, hagain, if_true]

theorem patternAgain_iff {maxlen totalLen : Int} {pat head : UInt32} {eof : Bool} :
    patternAgain maxlen pat head totalLen eof = true ↔
      (head ≠ pat ∨ totalLen < 3) ∧ totalLen < maxlen ∧ eof = false := by
  simp only [patternAgain, Bool.and_eq_true, Bool.or_eq_true, bne_iff_ne, decide_eq_true_eq,
    Bool.not_eq_true', and_assoc]

theorem patternAt_of_head {pattern : UInt32} {data looked : List UInt8} (hpre : looked <+: data)
    (h3 : 3 ≤ looked.length) (hhead : headAfter looked = pattern &&& 0xffffff00) :
    PatternAt pattern data looked.length := by
  refine ⟨hpre.length_le, ?_⟩
  rw [← List.prefix_iff_eq_take.mp hpre]
  exact (headAfter_eq_iff h3 pattern).mp hhead

/-- What holds before each turn, with `seen` read, `w` left in the window and `ps` to come. -/
structure Searching (pattern : UInt32) (data : List UInt8) (maxlen : Int) (last : Nat)
    (seen w : List UInt8) (ps : List (List UInt8)) : Prop where
  data_eq : data = seen ++ (w ++ ps.flatten)
  last_eq : last = seen.length + packetEnd (w :: ps) (maxlen - seen.length).toNat
  unseen : ∀ e ≤ seen.length, ¬ PatternAt pattern data e
  within : seen = [] ∨ (seen.length : Int) < maxlen

namespace Searching

variable {pattern : UInt32} {data seen : List UInt8} {maxlen : Int} {last : Nat}

theorem seen_prefix (h : Searching pattern data maxlen last seen w ps) : seen <+: data :=
  h.data_eq ▸ List.prefix_append _ _

theorem seen_le (h : Searching pattern data maxlen last seen w ps) :
    seen.length ≤ maxlen.toNat := by
  obtain rfl | hlt := h.within
  · exact Nat.zero_le _
  · omega

/-- The next packet is in the window. -/
theorem next {p : List UInt8} (h : Searching pattern data maxlen last seen [] (p :: ps))
    (hlt : (seen.length : Int) < maxlen) : Searching pattern data maxlen last seen p ps := by
  refine ⟨h.data_eq, ?_, h.unseen, Or.inr hlt⟩
  rw [h.last_eq, packetEnd, List.length_nil, if_neg (by omega), Nat.zero_add, Nat.sub_zero]

/-- The search goes on behind what was read of the window. -/
theorem read {n : Nat} (h : Searching pattern data maxlen last seen w ps) (hn : n ≤ w.length)
    (hlt : (seen.length + n : Int) < maxlen)
    (hunseen : ∀ e ≤ seen.length + n, ¬ PatternAt pattern data e) :
    Searching pattern data maxlen last (seen ++ w.take n) (w.drop n) ps := by
  have hlen : (seen ++ w.take n).length = seen.length + n := by
    rw [List.length_append, List.length_take_of_le hn]
  refine ⟨?_, ?_, hlen ▸ hunseen, Or.inr (by omega)⟩
  · rw [h.data_eq, List.append_assoc, ← List.append_assoc (w.take n), List.take_append_drop]
  · rw [h.last_eq, hlen, packetEnd, packetEnd, List.length_drop]
    by_cases hcut : (maxlen - seen.length).toNat ≤ w.length
    · rw [if_pos hcut, if_pos (by omega)]
      omega
    · rw [if_neg hcut, if_neg (by omega)]
      have hsame : (maxlen - seen.length).toNat - w.length =
          (maxlen - (seen.length + n : Nat)).toNat - (w.length - n) := by omega
      rw [hsame]
      omega

/-- The search stops at the end of the data. -/
theorem at_end (h : Searching pattern data maxlen last seen [] []) :
    SearchStops pattern data maxlen last (headAfter seen) (seen ++ []) seen := by
  have hall : data = seen ++ [] := h.data_eq
  exact ⟨rfl, ⟨[], by rw [List.append_nil, List.append_nil]⟩, h.seen_prefix,
    by rw [List.append_nil]; exact h.seen_le,
    Or.inl (List.append_nil _).symm, fun e he => h.unseen e (Nat.le_of_lt he),
    Or.inr (Or.inr hall.symm)⟩

/-- The search stops at once if there is nothing to read. -/
theorem at_once (h : Searching pattern data maxlen last seen w ps) (hle : maxlen ≤ seen.length) :
    SearchStops pattern data maxlen last (headAfter seen) (seen ++ []) seen := by
  have hnil : seen = [] := h.within.resolve_right (Int.not_lt.mpr hle)
  subst hnil
  exact ⟨rfl, List.prefix_rfl, h.seen_prefix, h.seen_le, Or.inl rfl,
    fun e he => h.unseen e (Nat.le_of_lt he),
    Or.inr (Or.inl ⟨(Int.toNat_of_nonpos hle).symm,
      Or.inl (by exact Int.lt_of_le_of_lt hle (by decide))⟩)⟩

/-- The search stops in the window, after it read `k` of the `n` bytes it looked at. -/
theorem in_window {n k : Nat} (h : Searching pattern data maxlen last seen w ps)
    (hn : n = (scanWindow (pattern &&& 0xffffff00) (headAfter seen) w).2) (hk : k ≤ n)
    (hle : seen.length + k ≤ maxlen.toNat)
    (hstop : n = k ∧ PatternAt pattern data (seen.length + n) ∨ maxlen ≤ seen.length + k) :
    SearchStops pattern data maxlen last
      (scanWindow (pattern &&& 0xffffff00) (headAfter seen) w).1 (seen ++ w.take k)
      (seen ++ w.take n) := by
  obtain ⟨hnw, -, -, hend, -⟩ := scanWindow_spec (pattern &&& 0xffffff00) (headAfter seen) w
  rw [← hn] at hnw hend
  have hfront : seen ++ w <+: data :=
    ⟨ps.flatten, by rw [h.data_eq, List.append_assoc]⟩
  obtain ⟨hhead, hfirst⟩ := scanWindow_unseen hfront hn h.unseen
  have hlooked : (seen ++ w.take n).length = seen.length + n := by
    rw [List.length_append, List.length_take_of_le hnw]
  have hall : (seen ++ w.take k).length = seen.length + k := by
    rw [List.length_append, List.length_take_of_le (Nat.le_trans hk hnw)]
  have hlooked_prefix : seen ++ w.take n <+: data :=
    ((List.prefix_append_right_inj seen).mpr (List.take_prefix n w)).trans hfront
  have hfull : maxlen ≤ seen.length + k →
      seen.length + k = maxlen.toNat ∧ last = seen.length + w.length := by
    intro hlimit
    refine ⟨by omega, ?_⟩
    rw [h.last_eq, packetEnd, if_pos (by omega)]
  refine ⟨hhead, (List.prefix_append_right_inj seen).mpr (List.take_prefix_take_left hk),
    hlooked_prefix, by rw [hall]; exact hle, ?_, hfirst, ?_⟩
  · obtain ⟨rfl, -⟩ | hlimit := hstop
    · exact Or.inl rfl
    · obtain ⟨hmax, hlast⟩ := hfull hlimit
      rw [hall, hlooked, hlast]
      exact Or.inr ⟨hmax, Nat.add_le_add_left hnw _⟩
  · by_cases hat : PatternAt pattern data (seen ++ w.take n).length
    · exact Or.inl hat
    · obtain ⟨-, hat'⟩ | hlimit := hstop
      · exact absurd (hlooked ▸ hat') hat
      · obtain ⟨hmax, hlast⟩ := hfull hlimit
        refine Or.inr (Or.inl ⟨hall.trans hmax, ?_⟩)
        by_cases h3 : maxlen < 3
        · exact Or.inl h3
        · have hne : (scanWindow (pattern &&& 0xffffff00) (headAfter seen) w).1 ≠
              pattern &&& 0xffffff00 := by
            rw [hhead]
            exact fun heq => hat (patternAt_of_head hlooked_prefix (by omega) heq)
          rw [hlooked, hlast, hend.resolve_right hne]
          exact Or.inr rfl

end Searching

/-- The search stopped after it read the first `k` bytes of the window. -/
theorem Supplies.done {pattern : UInt32} {data seen looked : List UInt8} {maxlen : Int}
    {last k : Nat}
    {head : UInt32} (h : Supplies fills d w ps) (hs : Searching pattern data maxlen last seen w ps)
    (hk : k ≤ w.length) (heof : d.ds.eof = false)
    (hstops : SearchStops pattern data maxlen last head (seen ++ w.take k) looked) :
    PatternDone pattern data maxlen last (dsTell d.ds) seen (w.take k) head (dsAdvance d k)
      fills := by
  obtain ⟨hadvance, htell, -⟩ := h.advance hk heof
  refine ⟨⟨looked, hstops⟩, ?_, w.drop k, ps, hadvance.window, fun _ => hadvance.brings, ?_⟩
  · rw [htell, List.length_take_of_le hk]
  · rw [hs.data_eq, List.append_assoc, ← List.append_assoc (w.take k), List.take_append_drop]

/-- The search stops, given this much fuel. -/
def PatternEnds (pattern : UInt32) (data : List UInt8) (maxlen : Int) (last n : Nat)
    (fills : List (DemuxFill τ)) (d : Demuxer τ) (seen : List UInt8) : Prop :=
  ∃ mem head d' rest, (∀ fuel, n ≤ fuel →
    patternLoop maxlen (pattern &&& 0xffffff00) fuel fills d (headAfter seen) seen.length =
      some (mem, head, d', rest)) ∧
    PatternDone pattern data maxlen last (dsTell d.ds) seen mem head d' rest

/-- A turn with an empty window takes a packet. -/
theorem patternLoop_fill {n : Nat} {ps : List (List UInt8)} (h : Supplies fills d [] ps)
    (hs : Searching pattern data maxlen last seen [] ps)
    (hn : ([] : List UInt8).length + ps.flatten.length + ps.length + 2 < n + 1)
    (hnext : ∀ {fills : List (DemuxFill τ)} {d : Demuxer τ} {w : List UInt8}
      {ps : List (List UInt8)}, Supplies fills d w ps →
      Searching pattern data maxlen last seen w ps →
      w.length + ps.flatten.length + ps.length + 2 < n →
        PatternEnds pattern data maxlen last n fills d seen) :
    PatternEnds pattern data maxlen last (n + 1) fills d seen := by
  obtain ⟨ok, d₁, rest, hfill, heof, htell, hcases⟩ := h.fill
  have hturn : ∀ fuel, patternTurn fuel fills d maxlen (pattern &&& 0xffffff00)
      (headAfter seen) seen.length = some ([], headAfter seen, d₁, rest) :=
    fun _ => patternTurn_fill h _ _ _ _ hfill
  have hsame : (seen.length : Int) + ([] : List UInt8).length = seen.length := Int.add_zero _
  have htell₀ : dsTell d₁.ds = dsTell d.ds + ([] : List UInt8).length :=
    htell.trans (Int.add_zero _).symm
  by_cases hagain : patternAgain maxlen (pattern &&& 0xffffff00) (headAfter seen)
      seen.length d₁.ds.eof = true
  · obtain ⟨-, hlt, hnot⟩ := patternAgain_iff.mp hagain
    obtain ⟨rfl, -, -⟩ | ⟨p, ps', -, rfl, hsupplies⟩ := hcases
    · exact absurd (heof.symm.trans hnot) (by decide)
    · rw [List.flatten_cons, List.length_append, List.length_cons, List.length_nil] at hn
      obtain ⟨mem, head, d', rest', hloop, hdone⟩ :=
        hnext hsupplies (hs.next hlt) (by omega)
      refine ⟨mem, head, d', rest', fun fuel hfuel => ?_, hdone.stops, htell ▸ hdone.tell,
        hdone.left⟩
      obtain ⟨m, rfl⟩ := Nat.exists_eq_add_of_lt hfuel
      rw [patternLoop_again (hturn _) (hsame ▸ hagain), hsame, hloop (n + m) (Nat.le_add_right n m)]
      rfl
  · refine ⟨[], headAfter seen, d₁, rest, fun fuel hfuel => ?_, ?_⟩
    · obtain ⟨m, rfl⟩ := Nat.exists_eq_add_of_lt hfuel
      exact patternLoop_stop (hturn _) (hsame.symm ▸ Bool.eq_false_iff.mpr hagain)
    · obtain ⟨rfl, rfl, hwindow⟩ | ⟨p, ps', rfl, rfl, hsupplies⟩ := hcases
      · refine ⟨⟨seen, hs.at_end⟩, htell₀, [], [], hwindow, fun hnot => ?_, ?_⟩
        · exact absurd (heof.symm.trans hnot) (by decide)
        · rw [hs.data_eq, List.append_nil]
      · have hle : maxlen ≤ seen.length := by
          refine Int.not_lt.mp fun hlt => hagain (patternAgain_iff.mpr ⟨?_, hlt, heof⟩)
          by_cases h3 : (seen.length : Int) < 3
          · exact Or.inr h3
          · exact Or.inl fun hhead => hs.unseen _ (Nat.le_refl _)
              (patternAt_of_head hs.seen_prefix (by omega) hhead)
        refine ⟨⟨seen, hs.at_once hle⟩, htell₀, p, ps', hsupplies.window,
          fun _ => hsupplies.brings, ?_⟩
        rw [hs.data_eq, List.append_nil]
        rfl

section Scanned

variable {k : Nat} {ps : List (List UInt8)}

/-- If the loop goes on, the pattern doesn't end in what was scanned. -/
theorem Searching.scanned_unseen (hs : Searching pattern data maxlen last seen w ps)
    (hk : k = (scanWindow (pattern &&& 0xffffff00) (headAfter seen) w).2) (hle : k ≤ w.length)
    (hne : (scanWindow (pattern &&& 0xffffff00) (headAfter seen) w).1 ≠ pattern &&& 0xffffff00 ∨
      (seen.length : Int) + k < 3) :
    ∀ e ≤ seen.length + k, ¬ PatternAt pattern data e := by
  have hfront : seen ++ w <+: data := ⟨ps.flatten, by rw [hs.data_eq, List.append_assoc]⟩
  obtain ⟨hhead, hfirst⟩ := scanWindow_unseen hfront hk hs.unseen
  have hread : seen ++ w.take k <+: data :=
    ((List.prefix_append_right_inj seen).mpr (List.take_prefix k _)).trans hfront
  have hlength : (seen ++ w.take k).length = seen.length + k := by
    rw [List.length_append, List.length_take_of_le hle]
  intro e he hat
  obtain rfl | hbefore := Nat.eq_or_lt_of_le he
  · obtain hne | hshort := hne
    · refine hne ?_
      rw [hhead, List.prefix_iff_eq_take.mp hread, hlength]
      exact hat.head_eq
    · have h3 := hat.three_le
      omega
  · exact hfirst e (hlength ▸ hbefore) hat

/-- If the loop stops in front of the limit, it has found the pattern. -/
theorem Searching.scanned_at (hs : Searching pattern data maxlen last seen w ps)
    (hk : k = (scanWindow (pattern &&& 0xffffff00) (headAfter seen) w).2) (hle : k ≤ w.length)
    (hhead : (scanWindow (pattern &&& 0xffffff00) (headAfter seen) w).1 = pattern &&& 0xffffff00)
    (h3 : 3 ≤ seen.length + k) : PatternAt pattern data (seen.length + k) := by
  have hfront : seen ++ w <+: data := ⟨ps.flatten, by rw [hs.data_eq, List.append_assoc]⟩
  have hread : seen ++ w.take k <+: data :=
    ((List.prefix_append_right_inj seen).mpr (List.take_prefix k _)).trans hfront
  have hlength : (seen ++ w.take k).length = seen.length + k := by
    rw [List.length_append, List.length_take_of_le hle]
  rw [← hlength]
  exact patternAt_of_head hread (by omega) ((scanWindow_unseen hfront hk hs.unseen).1 ▸ hhead)

end Scanned

/-- Every turn reads on in the window or takes a packet, so the search stops. -/
theorem patternLoop_done {pattern : UInt32} {data : List UInt8} {maxlen : Int} {last : Nat} :
    ∀ (n : Nat) {fills : List (DemuxFill τ)} {d : Demuxer τ} {w seen : List UInt8}
      {ps : List (List UInt8)}, Supplies fills d w ps →
      Searching pattern data maxlen last seen w ps →
      w.length + ps.flatten.length + ps.length + 2 < n →
      PatternEnds pattern data maxlen last n fills d seen
  | 0, _, _, _, _, _, _, _, hn => absurd hn (Nat.not_lt_zero _)
  | n + 1, fills, d, [], seen, ps, h, hs, hn => patternLoop_fill h hs hn (patternLoop_done n)
  | n + 1, fills, d, b :: w, seen, ps, h, hs, hn => by
    have hw : b :: w ≠ [] := List.cons_ne_nil b w
    have heof : d.ds.eof = false := Bool.eq_false_iff.mpr fun he => hw (h.ended he)
    obtain ⟨hle, -, -, -, hpos⟩ :=
      scanWindow_spec (pattern &&& 0xffffff00) (headAfter seen) (b :: w)
    have hpos := hpos hw
    have hturn := fun fuel => patternTurn_scan fuel h hw maxlen (pattern &&& 0xffffff00)
      (headAfter seen) seen.length
    obtain ⟨k, hk⟩ : ∃ k, k = (scanWindow (pattern &&& 0xffffff00) (headAfter seen) (b :: w)).2 :=
      ⟨_, rfl⟩
    have hwithin := hs.seen_le
    have hfuel : ∀ fuel, n + 1 ≤ fuel → ∃ m, fuel = m + 2 + 1 ∧ n ≤ m + 2 := by
      intro fuel hfuel
      rw [List.length_cons] at hn
      exact ⟨fuel - 3, by omega, by omega⟩
    simp only [← hk] at hle hpos hturn
    by_cases hclip : maxlen < seen.length + k
    · have hcut : (maxlen - seen.length).toNat ≤ k := by omega
      simp only [if_pos hclip] at hturn
      refine ⟨_, _, _, _, fun fuel hge => ?_, h.done hs (Nat.le_trans hcut hle) heof
        (hs.in_window hk hcut ?_ (Or.inr (by omega)))⟩
      · obtain ⟨m, rfl, -⟩ := hfuel fuel hge
        refine patternLoop_stop (hturn m) (Bool.eq_false_iff.mpr fun hagain => ?_)
        have hlt := (patternAgain_iff.mp hagain).2.1
        rw [List.length_take_of_le (Nat.le_trans hcut hle)] at hlt
        omega
      · obtain rfl | hlt := hs.within
        · rw [List.length_nil, Nat.zero_add]
          exact Int.toNat_le_toNat (Int.sub_le_self _ (Int.natCast_nonneg _))
        · omega
    · simp only [if_neg hclip, Int.toNat_natCast] at hturn
      have htake : ((b :: w).take k).length = k := List.length_take_of_le hle
      obtain ⟨hhead, -⟩ := scanWindow_unseen
        ⟨ps.flatten, by rw [hs.data_eq, List.append_assoc]⟩ hk hs.unseen
      by_cases hagain : patternAgain maxlen (pattern &&& 0xffffff00)
          (scanWindow (pattern &&& 0xffffff00) (headAfter seen) (b :: w)).1
          (seen.length + ((b :: w).take k).length) (dsAdvance d k).ds.eof = true
      · obtain ⟨hne, hlt, -⟩ := patternAgain_iff.mp hagain
        rw [htake] at hlt hne
        obtain ⟨hadvance, htell, -⟩ := h.advance hle heof
        obtain ⟨mem, head, d', rest', hloop, ⟨looked, hstops⟩, htell', w', ps', hwindow, hbrings,
          hdata⟩ := patternLoop_done n hadvance
            (hs.read hle hlt (hs.scanned_unseen hk hle hne)) (by
              rw [List.length_drop]
              omega)
        refine ⟨(b :: w).take k ++ mem, head, d', rest', fun fuel hge => ?_, ⟨looked, ?_⟩, ?_, w',
          ps', hwindow, hbrings, ?_⟩
        · obtain ⟨m, rfl, hm⟩ := hfuel fuel hge
          have htotal : (seen.length : Int) + ((b :: w).take k).length =
              (seen ++ (b :: w).take k).length := by
            rw [List.length_append, Int.natCast_add]
          rw [patternLoop_again (hturn m) hagain, hhead, htotal, hloop (m + 2) hm]
          rfl
        · rw [← List.append_assoc]
          exact hstops
        · rw [htell', htell, List.length_append, htake, Int.natCast_add, Int.add_assoc]
        · rw [hdata, ← List.append_assoc seen]
      · refine ⟨_, _, _, _, fun fuel hge => ?_, h.done hs hle heof
          (hs.in_window hk (Nat.le_refl k) (by omega) ?_)⟩
        · obtain ⟨m, rfl, -⟩ := hfuel fuel hge
          exact patternLoop_stop (hturn m) (Bool.eq_false_iff.mpr hagain)
        · by_cases hlt : (seen.length + k : Int) < maxlen
          · have hstop : ¬ ((scanWindow (pattern &&& 0xffffff00) (headAfter seen) (b :: w)).1 ≠
                pattern &&& 0xffffff00 ∨ (seen.length + ((b :: w).take k).length : Int) < 3) := by
              intro hne
              refine hagain (patternAgain_iff.mpr ⟨hne, ?_, heof⟩)
              rw [htake]
              exact hlt
            rw [not_or, Decidable.not_not, htake] at hstop
            exact Or.inl ⟨rfl, hs.scanned_at hk hle hstop.1 (by omega)⟩
          · exact Or.inr (Int.not_lt.mp hlt)

/-! ## Every stream in use -/

/-- At the end of the stream nothing is left in the window. -/
def Demuxer.EndsEmpty (d : Demuxer τ) : Prop :=
  d.ds.eof = true → d.ds.bufferSize = d.ds.bufferPos

theorem Demuxer.EndsEmpty.of_not_eof (h : d.ds.eof = false) : d.EndsEmpty :=
  fun heof => absurd (h.symm.trans heof) (by decide)

theorem dsFillLoop_endsEmpty : ∀ (fills : List (DemuxFill τ)) {d d' : Demuxer τ} {ok : Bool}
    {rest : List (DemuxFill τ)}, dsFillLoop fills d = some (ok, d', rest) → d'.EndsEmpty
  | fills, d, d', true, rest, h => .of_not_eof (dsFillLoop_eof fills h)
  | fills, d, d', false, rest, h => by
    rw [dsFillLoop.eq_def] at h
    split at h
    case isTrue =>
      obtain ⟨d₁, -, heq⟩ := Option.map_eq_some_iff.mp h
      cases heq
    case isFalse =>
      split at h
      case isTrue =>
        cases h
        exact fun _ => rfl
      case isFalse =>
        cases fills with
        | nil => cases h
        | cons f fills =>
          obtain ⟨d₁, -, hnext⟩ := Option.bind_eq_some_iff.mp h
          split at hnext
          case isTrue => exact dsFillLoop_endsEmpty fills hnext
          case isFalse =>
            cases hnext
            exact fun _ => rfl

theorem dsFillBuffer_endsEmpty {ok : Bool} (h : dsFillBuffer fills d = some (ok, d', rest)) :
    d'.EndsEmpty := dsFillLoop_endsEmpty fills h

/-- Reading in a window that is not used up is not at the end of the stream. -/
theorem Demuxer.EndsEmpty.advance (h : d.EndsEmpty) (hne : d.ds.bufferSize ≠ d.ds.bufferPos)
    (x : Int) : (dsAdvance d x).EndsEmpty :=
  .of_not_eof (Bool.eq_false_iff.mpr fun heof => hne (h heof))

theorem demuxReadData_endsEmpty : ∀ (fuel : Nat) {fills rest : List (DemuxFill τ)}
    {d d' : Demuxer τ} {len : Int} {mem : List UInt8}, d.EndsEmpty →
    demuxReadData fuel fills d len = some (mem, d', rest) → d'.EndsEmpty
  | 0, _, _, _, _, _, _, _, hread => by cases hread
  | fuel + 1, fills, rest, d, d', len, mem, h, hread => by
    rw [demuxReadData] at hread
    by_cases hlen : 0 < len
    · rw [if_pos hlen] at hread
      by_cases hx : d.ds.bufferSize - d.ds.bufferPos = 0
      · rw [if_pos hx] at hread
        obtain ⟨⟨ok, d₁, fills₁⟩, hfill, hnext⟩ := Option.bind_eq_some_iff.mp hread
        have hends := dsFillBuffer_endsEmpty hfill
        cases ok with
        | false =>
          cases hnext
          exact hends
        | true => exact demuxReadData_endsEmpty fuel hends hnext
      · rw [if_neg hx] at hread
        split at hread
        · cases hread
        · obtain ⟨⟨mem₁, d₁, fills₁⟩, hnext, heq⟩ := Option.map_eq_some_iff.mp hread
          cases heq
          exact demuxReadData_endsEmpty fuel (h.advance (by omega) _) hnext
    · rw [if_neg hlen] at hread
      cases hread
      exact h

/-- A packet just taken, read from, is not at the end of the stream. -/
theorem dsFillBuffer_advance_endsEmpty (h : dsFillBuffer fills d = some (true, d', rest))
    (x : Int) : (dsAdvance d' x).EndsEmpty :=
  have heof : d'.ds.eof = false := dsFillLoop_eof fills h
  .of_not_eof heof

theorem demuxGetc_endsEmpty {c : Option (Option UInt8)} (h : d.EndsEmpty)
    (hget : demuxGetc fills d = some (c, d', rest)) : d'.EndsEmpty := by
  rw [demuxGetc] at hget
  split at hget
  case isTrue hpos =>
    cases hget
    exact h.advance (Int.ne_of_gt hpos) _
  case isFalse =>
    obtain ⟨⟨ok, d₁, fills₁⟩, hfill, heq⟩ := Option.map_eq_some_iff.mp hget
    cases ok with
    | false =>
      cases heq
      exact dsFillBuffer_endsEmpty hfill
    | true =>
      cases heq
      exact dsFillBuffer_advance_endsEmpty hfill _

theorem dsGetPacket_endsEmpty {len : Int} {data : List UInt8} (h : d.EndsEmpty)
    (hget : dsGetPacket fills d = some ((len, data), d', rest)) : d'.EndsEmpty := by
  rw [dsGetPacket] at hget
  split at hget
  case isTrue hpos =>
    obtain ⟨⟨ok, d₁, fills₁⟩, hfill, heq⟩ := Option.map_eq_some_iff.mp hget
    cases ok with
    | false =>
      cases heq
      exact dsFillBuffer_endsEmpty hfill
    | true =>
      cases heq
      exact dsFillBuffer_advance_endsEmpty hfill _
  case isFalse hpos =>
    cases hget
    exact h.advance (Int.ne_of_gt (Int.not_le.mp hpos)) _

theorem addNewPacket_endsEmpty {p : PacketData τ} (h : d.EndsEmpty)
    (hadd : addNewPacket p d = some d') : d'.EndsEmpty := by
  rw [addNewPacket, dsAddPacket, dsAddPacketInternal] at hadd
  obtain ⟨c, -, hadd⟩ := Option.bind_eq_some_iff.mp hadd
  simp only [] at hadd
  split at hadd
  · obtain ⟨e, -, hadd⟩ := Option.bind_eq_some_iff.mp hadd
    cases hadd
    exact h
  · cases hadd
    exact h

theorem Demuxer.EndsEmpty.step {r r' : DemuxRun τ} {call : DemuxCall τ} (h : r.d.EndsEmpty)
    (hstep : DemuxStep r call r') : r'.d.EndsEmpty := by
  cases hstep with
  | addPacket hadd => exact addNewPacket_endsEmpty h hadd
  | readData hread =>
    obtain ⟨n, hn⟩ := hread
    exact demuxReadData_endsEmpty n h (hn n (Nat.le_refl n))
  | getc hget => exact demuxGetc_endsEmpty h hget
  | getPacket hget => exact dsGetPacket_endsEmpty h hget

/-- In every state a safe run reaches from an empty stream, what is left in the window and the
packets to come can be searched. -/
theorem supplies_of_reachable {d₀ : Demuxer τ} {r : DemuxRun τ} (hd : d₀.Empty)
    (hr : Reachable DemuxSafeStep (fun s => s = DemuxRun.start d₀) r)
    (hbrings : Brings fills r.d ps) :
    ∃ w, Supplies fills r.d w ps := by
  have hinv : r.Inv (dsTell d₀.ds) ∧ r.d.EndsEmpty := by
    refine hr.invariant (I := fun s => s.Inv (dsTell d₀.ds) ∧ s.d.EndsEmpty) ?_ ?_
    · rintro s rfl
      exact ⟨hd.inv, fun _ => hd.pos.symm⟩
    · exact fun s call t hs hst => ⟨hs.1.step hst, hs.2.step hst.2⟩
  obtain ⟨⟨xs, ⟨w, q, hw, hq, -⟩, -, -⟩, hends⟩ := hinv
  refine ⟨w, hw, ⟨q, hq⟩, fun heof => ?_, hbrings⟩
  have hlength := hw.length_eq
  have hsize := hends heof
  exact List.eq_nil_of_length_eq_zero (by omega)

/-! ## `demux_pattern_3` -/

/-- The search did what it is for: a bounded search of `data`, with the stream behind what was
read. -/
structure PatternExact (d : Demuxer τ) (data : List UInt8) (maxlen : Int) (pattern : UInt32)
    (r : PatternResult τ) : Prop where
  exact : SearchExact pattern data maxlen r.found r.mem
  read : r.read = r.mem.length
  tell : dsTell r.d.ds = dsTell d.ds + r.read
  left : ∃ w ps, r.d.Window w ∧ (r.d.ds.eof = false → Brings r.fills r.d ps) ∧
    w ++ ps.flatten = data.drop r.mem.length

/-- The function returns, and what is known of the search holds of its result. -/
theorem demuxPattern3_stops (h : Supplies fills d w ps) (maxlen : Int) (pattern : UInt32) :
    ∃ r : PatternResult τ, Returns (fun fuel => demuxPattern3 fuel fills d maxlen pattern) r ∧
      (PatternExact d (w ++ ps.flatten) maxlen pattern r ↔
        SearchExact pattern (w ++ ps.flatten) maxlen r.found r.mem) ∧
      ∃ head looked, r.found = (3 ≤ r.mem.length && head == pattern &&& 0xffffff00) ∧
        SearchStops pattern (w ++ ps.flatten) maxlen (packetEnd (w :: ps) maxlen.toNat) head r.mem
          looked := by
  have hs : Searching pattern (w ++ ps.flatten) maxlen (packetEnd (w :: ps) maxlen.toNat)
    [] w ps := by
    refine ⟨rfl, ?_, fun e he hat => ?_, Or.inl rfl⟩
    · rw [List.length_nil, Nat.zero_add, Int.natCast_zero, Int.sub_zero]
    · exact absurd (Nat.le_trans hat.three_le he) (by decide)
  obtain ⟨mem, head, d', rest, hloop, ⟨looked, hstops⟩, htell, w', ps', hwindow, hbrings, hdata⟩ :=
    patternLoop_done _ h hs (Nat.lt_succ_self _)
  rw [List.nil_append] at hstops hdata
  refine ⟨⟨3 ≤ mem.length && head == pattern &&& 0xffffff00, mem.length, mem, d', rest⟩,
    .of_forall (w.length + ps.flatten.length + ps.length + 2 + 1) fun fuel hfuel => ?_,
    ⟨fun hexact => hexact.exact,
      fun hexact => ⟨hexact, rfl, htell, w', ps', hwindow, hbrings, ?_⟩⟩, head, looked, rfl, hstops⟩
  · exact congrArg (Option.map _) (hloop fuel hfuel)
  · rw [hdata, List.drop_left]

/-- `demux_pattern_3` returns, and it is an exact bounded search of the unread bytes if and only
if the pattern is within the limit or does not end behind it in the packet that the limit is
in. -/
theorem demux_pattern_3_exact_iff (h : Supplies fills d w ps) (maxlen : Int) (pattern : UInt32) :
    ∃ r : PatternResult τ, Returns (fun fuel => demuxPattern3 fuel fills d maxlen pattern) r ∧
      (PatternExact d (w ++ ps.flatten) maxlen pattern r ↔
        SearchFits pattern (w ++ ps.flatten) maxlen (packetEnd (w :: ps) maxlen.toNat)) := by
  obtain ⟨r, hreturns, hiff, head, looked, hfound, hstops⟩ := demuxPattern3_stops h maxlen pattern
  refine ⟨r, hreturns, hiff.trans ?_⟩
  rw [hfound]
  exact hstops.exact_iff

/-- The packet `9 0 0 1`, and then the end of the stream. -/
def startCodeFills : List (DemuxFill Int) :=
  [⟨true, [⟨[9, 0, 0, 1], none, none, none, 0, 0⟩], .self, .null, false⟩,
    ⟨false, [], .self, .null, false⟩]

theorem startCode_supplies : Supplies startCodeFills audioDemuxer [] [[9, 0, 0, 1]] := by
  obtain ⟨xs, ⟨w, q, hw, hq, -⟩, -⟩ := ((newDemuxerStream_empty rfl).1 : audioDemuxer.Empty).inv
  refine ⟨⟨Int.le_refl 0, Int.le_refl 0, rfl, rfl⟩, ⟨q, hq⟩, fun _ => rfl, ?_⟩
  have hcalls : (dsFillBuffer startCodeFills audioDemuxer).map (fun r =>
      (r.1, r.2.1.ds.buffer, (dsFillBuffer r.2.2 r.2.1).map fun r => r.1)) =
        some (true, [9, 0, 0, 1], some false) := by decide +kernel
  obtain ⟨⟨ok, d, rest⟩, hfill, heq⟩ := Option.map_eq_some_iff.mp hcalls
  obtain ⟨rfl, hmore⟩ := Prod.mk.inj heq
  obtain ⟨hbuffer, hnext⟩ := Prod.mk.inj hmore
  obtain ⟨⟨ok', d', rest'⟩, hend, rfl⟩ := Option.map_eq_some_iff.mp hnext
  exact hbuffer ▸ .more hfill (.stop hend)

theorem demux_pattern_3_exact_iff_four :
    ∃ r : PatternResult Int,
      Returns (fun fuel => demuxPattern3 fuel startCodeFills audioDemuxer 4 0x100) r ∧
        (PatternExact audioDemuxer ([] ++ [[9, 0, 0, 1]].flatten) 4 0x100 r ↔
          SearchFits 0x100 ([] ++ [[9, 0, 0, 1]].flatten) 4
            (packetEnd ([] :: [[9, 0, 0, 1]]) (4 : Int).toNat)) :=
  demux_pattern_3_exact_iff startCode_supplies 4 0x100

/-- In any state that a safe run reaches, and if the demuxer fails sooner or later,
`demux_read_data` returns the next bytes, and fewer than it is asked for only at the end. -/
theorem demux_read_data_in_run {d₀ : Demuxer τ} {s : DemuxRun τ} (hd : d₀.Empty)
    (hr : Reachable DemuxSafeStep (fun s => s = DemuxRun.start d₀) s)
    (hend : ∃ f ∈ fills, f.ok = false) (len : Int) :
    ∃ r xs used, Returns (fun fuel => demuxReadData fuel fills s.d len) r ∧ s.d.Holds xs ∧
      fills = used ++ r.2.2 ∧ s.d.Delivers xs (addedBytes used) (r.1.map some) r.2.1 ∧
      (r.1.length : Int) ≤ max len 0 ∧ ((r.1.length : Int) < len → r.2.1.ds.eof = true) := by
  have hinv : s.Inv (dsTell d₀.ds) :=
    hr.invariant (by rintro _ rfl; exact hd.inv) fun _ _ _ hs => hs.step
  obtain ⟨xs, hholds, -, -⟩ := hinv
  obtain ⟨w, q, hw, hq, -⟩ := id hholds
  obtain ⟨r, hread⟩ := demuxReadData_returns _ len hw hq hend (Nat.lt_succ_self _)
  obtain ⟨used, hrest⟩ := demuxReadData_holds _ hholds (hread _ (Nat.le_refl _))
  exact ⟨r, xs, used, .of_forall _ hread, hholds, hrest⟩

theorem demux_read_data_in_run_start : ∃ r,
    Returns (fun fuel => demuxReadData fuel startCodeFills audioDemuxer 3) r := by
  obtain ⟨r, -, -, hreturns, -⟩ := @demux_read_data_in_run _ _ audioDemuxer
    (DemuxRun.start audioDemuxer) (newDemuxerStream_empty rfl).1 ⟨_, [], rfl, .refl⟩
    ⟨startCodeFills[1], List.getElem_mem _, rfl⟩ 3
  exact ⟨r, hreturns⟩

/-- The search can begin in any state that a safe run reaches. -/
theorem demux_pattern_3_in_run {d₀ : Demuxer τ} {s : DemuxRun τ} (hd : d₀.Empty)
    (hr : Reachable DemuxSafeStep (fun s => s = DemuxRun.start d₀) s)
    (hbrings : Brings fills s.d ps) (maxlen : Int) (pattern : UInt32) :
    ∃ w r, s.d.Window w ∧ Returns (fun fuel => demuxPattern3 fuel fills s.d maxlen pattern) r ∧
      (PatternExact s.d (w ++ ps.flatten) maxlen pattern r ↔
        SearchFits pattern (w ++ ps.flatten) maxlen (packetEnd (w :: ps) maxlen.toNat)) := by
  obtain ⟨w, h⟩ := supplies_of_reachable hd hr hbrings
  obtain ⟨r, hreturns, hiff, head, looked, hfound, hstops⟩ := demuxPattern3_stops h maxlen pattern
  rw [hfound] at hiff
  exact ⟨w, r, h.window, hreturns, hiff.trans hstops.exact_iff⟩

theorem demux_pattern_3_in_run_start : ∃ w r, audioDemuxer.Window w ∧
    Returns (fun fuel => demuxPattern3 fuel startCodeFills audioDemuxer 4 0x100) r := by
  obtain ⟨w, r, hw, hreturns, -⟩ := @demux_pattern_3_in_run _ _ _ audioDemuxer
    (DemuxRun.start audioDemuxer) (newDemuxerStream_empty rfl).1 ⟨_, [], rfl, .refl⟩
    startCode_supplies.brings 4 0x100
  exact ⟨w, r, hw, hreturns⟩

/-- A start code that ends one byte behind the limit is reported as found. -/
theorem pattern_behind_limit_found :
    ¬ ∀ (fills : List (DemuxFill Int)) (d : Demuxer Int) (w : List UInt8) (ps : List (List UInt8))
      (maxlen : Int) (pattern : UInt32), Supplies fills d w ps →
      ∃ r, Returns (fun fuel => demuxPattern3 fuel fills d maxlen pattern) r ∧
        PatternExact d (w ++ ps.flatten) maxlen pattern r := by
  intro hall
  obtain ⟨r, hreturns, hexact⟩ := hall _ _ _ _ 3 0x100 startCode_supplies
  obtain ⟨r', hreturns', -, head, looked, hfound, hstops⟩ :=
    demuxPattern3_stops startCode_supplies 3 0x100
  cases hreturns.unique hreturns'
  have hsearch := hexact.exact
  rw [hfound] at hsearch
  obtain hlt | ⟨e, he, hat⟩ | hbehind := hstops.exact_iff.mp hsearch
  · exact absurd hlt (by decide)
  · have h3 : e = 3 := Nat.le_antisymm he hat.three_le
    rw [h3] at hat
    exact absurd hat.2 (by decide)
  · exact hbehind 4 (by decide) (by decide) ⟨by decide, by decide⟩

end MPlayer
