import Mathlib.Data.List.Induction
import MPlayer.Lib.Collect
import MPlayer.Avi.Readers

/-!
# Both readers of an AVI file deliver the same packets

Each entry of the index holds at most one packet for a stream (`packetAt`), and each reader delivers
to a stream what the entries in front of its place in the index hold (`Synced`).  The entry whose
chunk does not fit into the buffers of a stream is the first one that neither stream got, and
`switch_to_ni` steps back to it.
-/

namespace MPlayer.AviDemux

open Lib

namespace AviFile

variable (f : AviFile)

/-! ## What the index holds -/

/-- An entry that no reader follows. -/
def Passed (e : IndexEntry) : Prop :=
  e.IsList ∨ f.selectStream e.ckid = none ∨ f.OutOfRange (f.entryPos e)

instance (e : IndexEntry) : Decidable (f.Passed e) := inferInstanceAs (Decidable (_ ∨ _ ∨ _))

/-- The packet of a stream that the entry `i` of the index leads to. -/
def packetFor (ds : DS) (e : IndexEntry) (i : Nat) : Option Packet :=
  if f.Passed e then none
  else
    match f.readHeader e with
    | .chunk c =>
      if f.selectStream c.id = some ds then (f.payload c).map fun data => ⟨data, i, c.flags⟩
        else none
    | _ => none

def packetAt (ds : DS) (i : Nat) : Option Packet := f.idx[i]?.bind fun e => f.packetFor ds e i

/-- The packets of a stream, in the order of the index. -/
def packets (ds : DS) : List Packet := collect (f.packetAt ds) f.idx.length

/-- The position behind a chunk that was read. -/
def behind (c : Chunk) : Nat :=
  match f.selectStream c.id with
  | none => c.pos + c.skipLength none
  | some ds => c.pos + ((f.payload c).getD []).length + c.skipLength (some ds)

/-- The position in the file at which `demux_avi_fill_buffer` is done with an entry. -/
def posAfter (pos : Nat) (e : IndexEntry) : Nat :=
  if f.Passed e then pos
  else
    match f.readHeader e with
    | .eof => f.bytes.length
    | .dropped pos => pos
    | .chunk c => f.behind c

/-- `demux_avi_fill_buffer` finds no chunk of a selected stream behind a position. -/
def Silent (pos : Nat) : Prop :=
  ∀ load s, s.pos = pos → (AviDemuxer.fillBehind f load (f.bytes.length + 1) s).1 = .eof

/-- Where `demux_avi_fill_buffer` stops. -/
def Stopped (pos : Nat) : Prop :=
  (pos : Int) ≥ f.moviEnd ∧ f.moviEnd > f.moviStart ∨ f.bytes.length ≤ pos

/-- An entry points to the header of a chunk, and the file holds all of it. -/
def PointsToChunk (e : IndexEntry) : Prop := (f.entryPos e).toNat + 8 ≤ f.bytes.length

/-- The entries of the selected streams point to chunks. -/
def Indexed : Prop :=
  ∀ e ∈ f.idx, ¬e.IsList → f.selectStream e.ckid ≠ none → f.PointsToChunk e

/-- No entry selects one stream where the chunk it leads to is taken for one of the other stream. -/
def Consistent : Prop :=
  ∀ e ∈ f.idx, ¬f.Passed e → ∀ c ds, f.readHeader e = .chunk c → f.selectStream c.id = some ds →
    f.selectStream e.ckid = some ds

/-- Behind the last indexed chunk that is read the file has no chunk of a selected
stream any more. -/
def Complete : Prop := f.Silent (f.idx.foldl f.posAfter f.moviStart.toNat)

end AviFile

namespace AviDemuxer

variable {f : AviFile} {s : AviDemuxer}

/-! ## The fields of the demuxer -/

/-- The first entry of the index that was not read for a stream. -/
def place (s : AviDemuxer) (ds : DS) : Nat := if s.ni then s.cursor ds else s.idxPos

@[simp] theorem deliver_delivered (ds d : DS) (p : Packet) :
    (s.deliver ds p).delivered d = s.delivered d ++ if d = ds then [p] else [] := by
  simp only [deliver]
  split
  · rfl
  · rw [List.append_nil]

@[simp] theorem readPacket_ni (ds : Option DS) (c : Chunk) (i : Int) :
    (s.readPacket f ds c i).ni = s.ni := by
  unfold readPacket
  split
  · rfl
  · split <;> rfl

@[simp] theorem readPacket_idxPos (ds : Option DS) (c : Chunk) (i : Int) :
    (s.readPacket f ds c i).idxPos = s.idxPos := by
  unfold readPacket
  split
  · rfl
  · split <;> rfl

@[simp] theorem readPacket_cursor (ds : Option DS) (c : Chunk) (i : Int) :
    (s.readPacket f ds c i).cursor = s.cursor := by
  funext d
  unfold readPacket
  split
  · cases d <;> rfl
  · split <;> cases d <;> rfl

theorem readPacket_place (ds : Option DS) (c : Chunk) (i : Int) :
    (s.readPacket f ds c i).place = s.place := by
  funext d
  unfold place
  rw [readPacket_ni, readPacket_idxPos, readPacket_cursor]

theorem readPacket_pos (c : Chunk) (i : Int) :
    (s.readPacket f (f.selectStream c.id) c i).pos = f.behind c := by
  unfold readPacket AviFile.behind
  cases hsel : f.selectStream c.id with
  | none => rfl
  | some ds =>
    cases hdata : f.payload c with
    | none => simp
    | some data => simp

theorem readPacket_delivered (ds : Option DS) (d : DS) (c : Chunk) (i : Int) :
    (s.readPacket f ds c i).delivered d =
      s.delivered d ++ (if ds = some d then (f.payload c).map fun data => ⟨data, i, c.flags⟩
        else none).toList := by
  unfold readPacket
  cases ds with
  | none => simp
  | some ds =>
    cases hdata : f.payload c with
    | none => simp
    | some data =>
      simp only [deliver_delivered, Option.map_some, Option.some.injEq, eq_comm (a := ds)]
      split <;> rfl

/-! ## The place of a stream in the index -/

/-- Each stream got what the entries in front of its place hold, and `demux_avi_fill_buffer` will
stop behind the last entry. -/
structure Synced (f : AviFile) (s : AviDemuxer) : Prop where
  delivered : ∀ ds, s.delivered ds = collect (f.packetAt ds) (s.place ds)
  silent : s.ni = false → f.Silent ((f.idx.drop s.idxPos).foldl f.posAfter s.pos)

/-- What a call for the stream `ds` does to the places of the streams.  If the place of `ds` stays
where it is, the index is at its end or the reader was switched. -/
structure Advances (f : AviFile) (ds : DS) (s s' : AviDemuxer) : Prop where
  mono : ∀ d, s.place d ≤ s'.place d
  ni : s.ni = true → s'.ni = true
  progress : s.place ds < s'.place ds ∨ f.idx.length ≤ s'.place ds ∨ s.ni = false ∧ s'.ni = true

variable {ds : DS} {s' : AviDemuxer} {e : IndexEntry} {load : DS → Load} {c : Chunk} {pos : Nat}

theorem Advances.after {t : AviDemuxer} (h : Advances f ds s' t) (hni : s'.ni = s.ni)
    (hmono : ∀ d, s.place d ≤ s'.place d) : Advances f ds s t where
  mono d := Nat.le_trans (hmono d) (h.mono d)
  ni hs := h.ni (hni.trans hs)
  progress := by
    obtain hlt | hend | ⟨hold, hnew⟩ := h.progress
    · exact .inl (Nat.lt_of_le_of_lt (hmono ds) hlt)
    · exact .inr (.inl hend)
    · exact .inr (.inr ⟨hni ▸ hold, hnew⟩)

/-! ## The interleaved reader -/

/-- `demux_avi_fill_buffer` is done with an entry. -/
structure Took (f : AviFile) (e : IndexEntry) (s s' : AviDemuxer) : Prop where
  ni : s'.ni = s.ni
  idxPos : s'.idxPos = s.idxPos + 1
  pos : s'.pos = f.posAfter s.pos e
  delivered : ∀ ds, s'.delivered ds = s.delivered ds ++ (f.packetFor ds e s.idxPos).toList

theorem getElem?_of_drop {es : List IndexEntry} {n : Nat} (h : f.idx.drop n = e :: es) :
    f.idx[n]? = some e ∧ f.idx.drop (n + 1) = es := by
  have hhead : (f.idx.drop n)[0]? = some e := by rw [h]; rfl
  have htail : (f.idx.drop n).tail = es := by rw [h]; rfl
  rw [List.getElem?_drop, Nat.add_zero] at hhead
  rw [List.tail_drop] at htail
  exact ⟨hhead, htail⟩

theorem packetAt_eq {n : Nat} (h : f.idx[n]? = some e) : f.packetAt ds n = f.packetFor ds e n := by
  unfold AviFile.packetAt
  rw [h]
  rfl

theorem Synced.took {es : List IndexEntry} (h : Synced f s) (hni : s.ni = false)
    (hes : f.idx.drop s.idxPos = e :: es) (htook : Took f e s s') : Synced f s' := by
  obtain ⟨hget, hdrop⟩ := getElem?_of_drop hes
  have hni' : s'.ni = false := htook.ni.trans hni
  constructor
  · intro ds
    have hplace : s.place ds = s.idxPos := if_neg (by rw [hni]; exact Bool.false_ne_true)
    have hplace' : s'.place ds = s.idxPos + 1 := by
      unfold place
      rw [if_neg (by rw [hni']; exact Bool.false_ne_true), htook.idxPos]
    rw [htook.delivered, h.delivered, hplace, hplace', collect_succ, packetAt_eq hget]
  · intro _
    have hsilent := h.silent hni
    rw [hes, List.foldl_cons] at hsilent
    rw [htook.idxPos, htook.pos, hdrop]
    exact hsilent

/-! ### The end of a turn -/

theorem endTurn_none (h : endTurn f load s c = (none, s')) :
    f.selectStream c.id = none ∧ s' = s.readPacket f (f.selectStream c.id) c (s.idxPos - 1) := by
  unfold endTurn at h
  cases hsel : f.selectStream c.id with
  | none =>
    rw [hsel] at h
    exact ⟨rfl, (Prod.mk.inj h).2.symm⟩
  | some ds =>
    rw [hsel] at h
    dsimp only at h
    split at h <;> cases (Prod.mk.inj h).1

theorem endTurn_some {ret : Return} (h : endTurn f load s c = (some ret, s')) :
    ret = .switched ∧ s' = s.switchToNi ∨
      ret = .packet ∧ s' = s.readPacket f (f.selectStream c.id) c (s.idxPos - 1) := by
  unfold endTurn at h
  cases hsel : f.selectStream c.id with
  | none =>
    rw [hsel] at h
    cases (Prod.mk.inj h).1
  | some ds =>
    rw [hsel] at h
    dsimp only at h
    split at h
    · obtain ⟨hret, hs⟩ := Prod.mk.inj h
      exact .inl ⟨(Option.some.inj hret).symm, hs.symm⟩
    · obtain ⟨hret, hs⟩ := Prod.mk.inj h
      exact .inr ⟨(Option.some.inj hret).symm, hs.symm⟩

/-! ### Behind the index -/

theorem resync_pos (fuel pos : Nat) : pos ≤ (resync f fuel pos).2 := by
  induction fuel generalizing pos with
  | zero => exact Nat.le_refl _
  | succ fuel ih =>
    simp only [resync]
    split
    · exact Nat.le_add_right _ _
    · split
      · exact Nat.le_trans (Nat.le_add_right _ _) (ih (pos + 4))
      · exact Nat.le_add_right _ _

theorem findId_pos (pos : Nat) : pos + 4 ≤ (findId f pos).2 := by
  simp only [findId]
  split
  · exact resync_pos _ _
  · exact Nat.le_refl _

/-- Behind the index nothing changes but the position until a chunk is found.  Each turn reads at
least eight bytes, so that the fuel suffices to come to the end. -/
theorem fillBehind_eof (fuel : Nat) (s : AviDemuxer) (h : (fillBehind f load fuel s).1 = .eof) :
    ∃ pos, (fillBehind f load fuel s).2 = { s with pos := pos } ∧
      (f.bytes.length < s.pos + fuel → f.Stopped pos) := by
  induction fuel generalizing s with
  | zero => exact ⟨s.pos, rfl, fun hlt => .inr (Nat.le_of_lt hlt)⟩
  | succ fuel ih =>
    have hread := findId_pos (f := f) s.pos
    simp only [fillBehind] at h ⊢
    split at h
    · next hend =>
      rw [if_pos hend]
      exact ⟨s.pos, rfl, fun _ => .inl hend⟩
    · next hend =>
      rw [if_neg hend]
      split at h
      · next heof =>
        rw [if_pos heof]
        exact ⟨_, rfl, fun _ => .inr (Nat.le_refl _)⟩
      · next heof =>
        rw [if_neg heof]
        split at h
        · next hlist =>
          rw [if_pos hlist]
          obtain ⟨pos, hs, hstop⟩ := ih _ h
          exact ⟨pos, hs, fun hlt => hstop (by dsimp only; omega)⟩
        · next hlist =>
          rw [if_neg hlist]
          split at h
          · next s' hturn =>
            obtain ⟨hnone, rfl⟩ := endTurn_none hturn
            rw [hnone] at h ⊢
            obtain ⟨pos, hs, hstop⟩ := ih _ h
            exact ⟨pos, hs, fun hlt => hstop (by simp only [readPacket]; omega)⟩
          · next ret s' hturn =>
            obtain ⟨rfl, -⟩ | ⟨rfl, -⟩ := endTurn_some hturn
            · cases h
            · cases h

theorem silent_of_stopped (h : f.Stopped pos) : f.Silent pos := by
  intro load s hpos
  subst hpos
  have hread := findId_pos (f := f) s.pos
  simp only [fillBehind]
  split
  · rfl
  · next hend =>
    have hlen := h.resolve_left hend
    have heof : f.Eof ((findId f s.pos).2 + 4) := by
      unfold AviFile.Eof
      omega
    rw [if_pos heof]

/-! ### On the index -/

theorem took_passed (h : f.Passed e) : Took f e s { s with idxPos := s.idxPos + 1 } where
  ni := rfl
  idxPos := rfl
  pos := (if_pos h).symm
  delivered ds := by
    have hnone : f.packetFor ds e s.idxPos = none := if_pos h
    rw [hnone]
    exact (List.append_nil _).symm

theorem took_dropped (h : ¬f.Passed e) (hdrop : f.readHeader e = .dropped pos) :
    Took f e s { s with idxPos := s.idxPos + 1, pos := pos } where
  ni := rfl
  idxPos := rfl
  pos := by
    unfold AviFile.posAfter
    rw [if_neg h, hdrop]
  delivered ds := by
    have hnone : f.packetFor ds e s.idxPos = none := by
      unfold AviFile.packetFor
      rw [if_neg h, hdrop]
    rw [hnone]
    exact (List.append_nil _).symm

theorem took_chunk (h : ¬f.Passed e) (hchunk : f.readHeader e = .chunk c) :
    Took f e s (readPacket f { s with idxPos := s.idxPos + 1 }
      (f.selectStream c.id) c s.idxPos) where
  ni := readPacket_ni _ _ _
  idxPos := readPacket_idxPos _ _ _
  pos := by
    unfold AviFile.posAfter
    rw [readPacket_pos, if_neg h, hchunk]
  delivered ds := by
    unfold AviFile.packetFor
    rw [readPacket_delivered, if_neg h, hchunk]

theorem readHeader_ne_eof (h : f.PointsToChunk e) : f.readHeader e ≠ .eof := by
  have heof : ¬f.Eof ((f.entryPos e).toNat + 4) := by
    unfold AviFile.PointsToChunk at h
    unfold AviFile.Eof
    omega
  simp only [AviFile.readHeader, if_neg heof]
  split
  · exact AviFile.Found.noConfusion
  · split
    · split <;> exact AviFile.Found.noConfusion
    · exact AviFile.Found.noConfusion

/-- A valid id of the index is the id of the chunk. -/
theorem readHeader_id (hvalid : ValidFourcc e.ckid) (h : f.readHeader e = .chunk c) :
    c.id = e.ckid := by
  simp only [AviFile.readHeader, if_pos hvalid] at h
  split at h
  · cases h
  · split at h
    · cases h
    · split at h
      · split at h
        · cases h
        · rw [← AviFile.Found.chunk.inj h]
      · rw [← AviFile.Found.chunk.inj h]

/-- An index with valid ids is consistent. -/
theorem consistent_of_valid (h : ∀ e ∈ f.idx, ValidFourcc e.ckid) : f.Consistent := by
  intro e he _ c ds hchunk hsel
  rw [← readHeader_id (h e he) hchunk]
  exact hsel

theorem place_indexed (hni : s.ni = false) (ds : DS) : s.place ds = s.idxPos :=
  if_neg (by rw [hni]; exact Bool.false_ne_true)

theorem place_ni (hni : s.ni = true) (ds : DS) : s.place ds = s.cursor ds := if_pos hni

theorem Took.place_lt (h : Took f e s s') (hni : s.ni = false) (ds : DS) :
    s.place ds < s'.place ds := by
  rw [place_indexed hni, place_indexed (h.ni.trans hni), h.idxPos]
  exact Nat.lt_succ_self _

theorem Took.advances (h : Took f e s s') (hni : s.ni = false) (ds : DS) : Advances f ds s s' where
  mono d := Nat.le_of_lt (h.place_lt hni d)
  ni hs := h.ni.trans hs
  progress := .inl (h.place_lt hni ds)

/-- The reader is switched to the entry whose chunk does not fit. -/
theorem switched_spec (hs : Synced f s) (hni : s.ni = false) (ds : DS)
    (hswitch : s' = switchToNi { s with idxPos := s.idxPos + 1 }) :
    Synced f s' ∧ Advances f ds s s' := by
  subst hswitch
  have hplace : ∀ d, (switchToNi { s with idxPos := s.idxPos + 1 }).place d = s.place d := by
    intro d
    rw [place_indexed hni, place_ni rfl]
    cases d <;> rfl
  constructor
  · exact ⟨fun d => (hs.delivered d).trans (hplace d ▸ rfl), fun h => Bool.noConfusion h⟩
  · exact ⟨fun d => Nat.le_of_eq (hplace d).symm, fun _ => rfl, .inr (.inr ⟨hni, rfl⟩)⟩

/-- Behind the last entry nothing is delivered any more. -/
theorem fillBehind_spec (hs : Synced f s) (hni : s.ni = false) (ds : DS)
    (hend : f.idx.drop s.idxPos = []) :
    Synced f (fillBehind f load (f.bytes.length + 1) s).2 ∧
      Advances f ds s (fillBehind f load (f.bytes.length + 1) s).2 := by
  have hsilent := hs.silent hni
  rw [hend, List.foldl_nil] at hsilent
  obtain ⟨pos, hstate, hstop⟩ := fillBehind_eof (f.bytes.length + 1) s (hsilent load s rfl)
  rw [hstate]
  have hstopped : f.Stopped pos := hstop (by omega)
  constructor
  · refine ⟨hs.delivered, fun _ => ?_⟩
    dsimp only
    rw [hend, List.foldl_nil]
    exact silent_of_stopped hstopped
  · refine ⟨fun d => Nat.le_refl _, fun h => h, .inr (.inl ?_)⟩
    rw [place_indexed (s := { s with pos := pos }) hni]
    exact List.drop_eq_nil_iff.mp hend

/-- What holds after a call of `demux_avi_fill_buffer`. -/
theorem fillIndexed_spec (hindexed : f.Indexed) (load : DS → Load) (ds : DS) (es : List IndexEntry)
    (s : AviDemuxer) (hes : f.idx.drop s.idxPos = es) (hni : s.ni = false) (hs : Synced f s) :
    Synced f (fillIndexed f load es s).2 ∧ Advances f ds s (fillIndexed f load es s).2 := by
  induction es generalizing s with
  | nil => exact fillBehind_spec hs hni ds hes
  | cons e es ih =>
    obtain ⟨hget, hdrop⟩ := getElem?_of_drop hes
    -- a turn that goes on with the next entry
    have hnext : ∀ s', Took f e s s' →
        Synced f (fillIndexed f load es s').2 ∧ Advances f ds s (fillIndexed f load es s').2 := by
      intro s' htook
      obtain ⟨hsynced, hadv⟩ := ih s' (by rw [htook.idxPos, hdrop]) (htook.ni.trans hni)
        (hs.took hni hes htook)
      exact ⟨hsynced, hadv.after htook.ni (htook.advances hni ds).mono⟩
    simp only [fillIndexed]
    split
    · next hlist => exact hnext _ (took_passed (.inl hlist))
    · next hlist =>
      split
      · next hsel => exact hnext _ (took_passed (.inr (.inl hsel)))
      · next hsel =>
        split
        · next hrange => exact hnext _ (took_passed (.inr (.inr hrange)))
        · next hrange =>
          have hread : ¬f.Passed e := by
            rintro (h | h | h)
            exacts [hlist h, hsel h, hrange h]
          split
          · next heof =>
            have hmem : e ∈ f.idx := List.mem_of_getElem? hget
            exact absurd heof (readHeader_ne_eof (hindexed e hmem hlist hsel))
          · next pos hdropped => exact hnext _ (took_dropped hread hdropped)
          · next c hchunk =>
            have htook := took_chunk (s := s) hread hchunk
            have hcast : ((s.idxPos + 1 : Nat) : Int) - 1 = s.idxPos := by omega
            split
            · next s' hturn =>
              obtain ⟨-, rfl⟩ := endTurn_none hturn
              rw [hcast]
              exact hnext _ htook
            · next ret s' hturn =>
              obtain ⟨-, hswitch⟩ | ⟨-, rfl⟩ := endTurn_some hturn
              · exact switched_spec hs hni ds hswitch
              · rw [hcast]
                exact ⟨hs.took hni hes htook, htook.advances hni ds⟩

/-! ## The non-interleaved reader -/

@[simp] theorem advance_ni (ds : DS) : (s.advance ds).ni = s.ni := by cases ds <;> rfl

@[simp] theorem advance_delivered (ds : DS) :
    (s.advance ds).delivered = s.delivered := by cases ds <;> rfl

theorem advance_cursor (ds d : DS) :
    (s.advance ds).cursor d = s.cursor d + if d = ds then 1 else 0 := by
  cases ds <;> cases d <;> rfl

/-- `demux_avi_fill_buffer_ni` is done with an entry for a stream. -/
structure TookFor (f : AviFile) (ds : DS) (e : IndexEntry) (s s' : AviDemuxer) : Prop where
  ni : s'.ni = s.ni
  cursor : s'.cursor = (s.advance ds).cursor
  delivered : ∀ d, s'.delivered d =
    s.delivered d ++ if d = ds then (f.packetFor ds e (s.cursor ds)).toList else []

theorem TookFor.place_le (h : TookFor f ds e s s') (hni : s.ni = true) (d : DS) :
    s.place d ≤ s'.place d := by
  rw [place_ni hni, place_ni (h.ni.trans hni), h.cursor, advance_cursor]
  exact Nat.le_add_right _ _

theorem TookFor.advances (h : TookFor f ds e s s') (hni : s.ni = true) : Advances f ds s s' where
  mono := h.place_le hni
  ni hs := h.ni.trans hs
  progress := by
    rw [place_ni hni, place_ni (h.ni.trans hni), h.cursor, advance_cursor, if_pos rfl]
    exact .inl (Nat.lt_succ_self _)

theorem Synced.tookFor (h : Synced f s) (hni : s.ni = true) (hget : f.idx[s.cursor ds]? = some e)
    (htook : TookFor f ds e s s') : Synced f s' := by
  have hni' : s'.ni = true := htook.ni.trans hni
  constructor
  · intro d
    rw [htook.delivered, h.delivered, place_ni hni, place_ni hni', htook.cursor, advance_cursor]
    split
    · next heq =>
      subst heq
      rw [collect_succ, packetAt_eq hget]
    · rw [List.append_nil, Nat.add_zero]
  · intro hfalse
    rw [hni'] at hfalse
    cases hfalse

/-- An entry that does not select a stream holds nothing for it. -/
theorem packetFor_unselected (hconsistent : f.Consistent) {i : Nat} (he : e ∈ f.idx)
    (hsel : f.selectStream e.ckid ≠ some ds) : f.packetFor ds e i = none := by
  unfold AviFile.packetFor
  split
  · rfl
  · next hread =>
    split
    · next c hchunk =>
      have hid : f.selectStream c.id ≠ some ds :=
        fun h => hsel (hconsistent e he hread c ds hchunk h)
      exact if_neg hid
    · rfl

theorem tookFor_nothing (h : f.packetFor ds e (s.cursor ds) = none) :
    TookFor f ds e s { s.advance ds with pos := pos } where
  ni := advance_ni ds
  cursor := by funext d; cases d <;> rfl
  delivered d := by
    rw [h]
    simp

theorem tookFor_chunk (hconsistent : f.Consistent) (he : e ∈ f.idx) (hread : ¬f.Passed e)
    (hchunk : f.readHeader e = .chunk c) (hsel : f.selectStream e.ckid = some ds) :
    TookFor f ds e s ((s.advance ds).readPacket f (f.selectStream c.id) c (s.cursor ds)) where
  ni := by rw [readPacket_ni, advance_ni]
  cursor := readPacket_cursor _ _ _
  delivered d := by
    rw [readPacket_delivered, advance_delivered]
    split
    · next hid =>
      have heq : d = ds :=
        Option.some.inj ((hconsistent e he hread c d hchunk hid).symm.trans hsel)
      subst heq
      simp only [AviFile.packetFor, if_neg hread, hchunk, if_pos hid, if_true]
    · next hid =>
      split
      · next heq =>
        subst heq
        simp only [AviFile.packetFor, if_neg hread, hchunk, if_neg hid]
      · rfl

/-- A call behind the last entry moves the place of the stream on. -/
theorem fillNi_end (hni : s.ni = true) (hs : Synced f s) (hend : f.idx.drop (s.cursor ds) = []) :
    Synced f (s.advance ds) ∧ Advances f ds s (s.advance ds) := by
  have hlen : f.idx.length ≤ s.cursor ds := List.drop_eq_nil_iff.mp hend
  have hni' : (s.advance ds).ni = true := by rw [advance_ni, hni]
  constructor
  · constructor
    · intro d
      rw [advance_delivered, hs.delivered, place_ni hni, place_ni hni', advance_cursor]
      split
      · next heq =>
        subst heq
        have hnone : f.packetAt d (s.cursor d) = none := by
          unfold AviFile.packetAt
          rw [List.getElem?_eq_none hlen]
          rfl
        exact (collect_skip hnone).symm
      · rfl
    · intro hfalse
      rw [hni'] at hfalse
      cases hfalse
  · constructor
    · intro d
      rw [place_ni hni, place_ni hni', advance_cursor]
      exact Nat.le_add_right _ _
    · exact fun _ => hni'
    · rw [place_ni hni, place_ni hni', advance_cursor, if_pos rfl]
      exact .inl (Nat.lt_succ_self _)

/-- What holds after a call of `demux_avi_fill_buffer_ni`. -/
theorem fillNi_spec (hindexed : f.Indexed) (hconsistent : f.Consistent) (ds : DS)
    (es : List IndexEntry)
    (s : AviDemuxer) (hes : f.idx.drop (s.cursor ds) = es) (hni : s.ni = true) (hs : Synced f s) :
    Synced f (fillNi f ds es s).2 ∧ Advances f ds s (fillNi f ds es s).2 := by
  induction es generalizing s with
  | nil => exact fillNi_end hni hs hes
  | cons e es ih =>
    obtain ⟨hget, hdrop⟩ := getElem?_of_drop hes
    have hmem : e ∈ f.idx := List.mem_of_getElem? hget
    have hnext : ∀ s', TookFor f ds e s s' →
        Synced f (fillNi f ds es s').2 ∧ Advances f ds s (fillNi f ds es s').2 := by
      intro s' htook
      have hcursor : s'.cursor ds = s.cursor ds + 1 := by
        rw [htook.cursor, advance_cursor, if_pos rfl]
      obtain ⟨hsynced, hadv⟩ := ih s' (by rw [hcursor, hdrop]) (htook.ni.trans hni)
        (hs.tookFor hni hget htook)
      exact ⟨hsynced, hadv.after htook.ni (htook.place_le hni)⟩
    have hpassed : f.Passed e → f.packetFor ds e (s.cursor ds) = none := fun h => if_pos h
    simp only [fillNi]
    split
    · next hlist => exact hnext _ (tookFor_nothing (hpassed (.inl hlist)))
    · next hlist =>
      split
      · next hsel =>
        exact hnext _ (tookFor_nothing (packetFor_unselected hconsistent hmem hsel))
      · next hsel =>
        rw [Decidable.not_not] at hsel
        split
        · next hrange => exact hnext _ (tookFor_nothing (hpassed (.inr (.inr hrange))))
        · next hrange =>
          have hnone : f.selectStream e.ckid ≠ none := by
            rw [hsel]; exact Option.some_ne_none ds
          have hread : ¬f.Passed e := by
            rintro (h | h | h)
            exacts [hlist h, hnone h, hrange h]
          split
          · next heof => exact absurd heof (readHeader_ne_eof (hindexed e hmem hlist hnone))
          · next pos hdropped =>
            have hnothing : f.packetFor ds e (s.cursor ds) = none := by
              unfold AviFile.packetFor
              rw [if_neg hread, hdropped]
            exact hnext _ (tookFor_nothing hnothing)
          · next c hchunk =>
            have htook := tookFor_chunk (s := s) hconsistent hmem hread hchunk hsel
            split
            · next hid =>
              rw [hid] at htook
              exact hnext _ htook
            · next d hid =>
              rw [hid] at htook
              exact ⟨hs.tookFor hni hget htook, htook.advances hni⟩

/-! ## Runs -/

theorem fillBuffer_spec (hindexed : f.Indexed) (hconsistent : f.Consistent) (call : Call)
    (hs : Synced f s) :
    Synced f (fillBuffer f s call).2 ∧ Advances f call.ds s (fillBuffer f s call).2 := by
  unfold fillBuffer
  cases hni : s.ni with
  | true => exact fillNi_spec hindexed hconsistent call.ds _ s rfl hni hs
  | false => exact fillIndexed_spec hindexed call.load call.ds _ s rfl hni hs

theorem opened_place (ni : Bool) (ds : DS) : (opened f ni).place ds = 0 := by
  cases ni <;> cases ds <;> rfl

theorem opened_synced (hcomplete : f.Complete) (ni : Bool) : Synced f (opened f ni) where
  delivered ds := by
    rw [opened_place]
    rfl
  silent _ := hcomplete

/-- After any calls a stream got what the entries in front of its place hold, and each of the calls
for it, but for the one that switched the reader, has moved its place on. -/
theorem run_spec (hindexed : f.Indexed) (hconsistent : f.Consistent) (hcomplete : f.Complete)
    (ni : Bool)
    (calls : List Call) :
    Synced f (run f (opened f ni) calls) ∧
      ∀ ds, (calls.map Call.ds).count ds ≤
          (run f (opened f ni) calls).place ds + (run f (opened f ni) calls).ni.toNat ∨
        f.idx.length ≤ (run f (opened f ni) calls).place ds := by
  induction calls using List.reverseRecOn with
  | nil => exact ⟨opened_synced hcomplete ni, fun ds => .inl (Nat.zero_le _)⟩
  | append_singleton calls call ih =>
    obtain ⟨hs, hcount⟩ := ih
    have hrun : run f (opened f ni) (calls ++ [call]) =
      (fillBuffer f (run f (opened f ni) calls) call).2 :=
      List.foldl_append
    obtain ⟨hsynced, hadv⟩ := fillBuffer_spec hindexed hconsistent call hs
    rw [hrun]
    refine ⟨hsynced, fun ds => ?_⟩
    have hmono := hadv.mono ds
    have hnat : (run f (opened f ni) calls).ni.toNat ≤
        (fillBuffer f (run f (opened f ni) calls) call).2.ni.toNat := by
      cases hold : (run f (opened f ni) calls).ni with
      | false => exact Nat.zero_le _
      | true => exact Nat.le_of_eq (congrArg Bool.toNat (hadv.ni hold).symm)
    rw [List.map_append, List.count_append]
    cases hcount ds with
    | inr hend => exact .inr (Nat.le_trans hend hmono)
    | inl hle =>
      by_cases hds : call.ds = ds
      · subst hds
        have hone : ([call].map Call.ds).count call.ds = 1 := List.count_singleton_self
        obtain hlt | hend | ⟨hold, hnew⟩ := hadv.progress
        · exact .inl (by omega)
        · exact .inr hend
        · rw [hold, Bool.toNat_false] at hle
          rw [hnew, Bool.toNat_true]
          exact .inl (by omega)
      · have hzero : ([call].map Call.ds).count ds = 0 :=
          List.count_eq_zero.mpr (by simpa [eq_comm] using hds)
        exact .inl (by omega)

/-- A stream that was asked for packets more often than the index has entries has
all its packets. -/
theorem run_packets (hindexed : f.Indexed) (hconsistent : f.Consistent) (hcomplete : f.Complete)
    (ni : Bool) {calls : List Call} (hcalls : f.idx.length < (calls.map Call.ds).count ds) :
    (run f (opened f ni) calls).delivered ds = f.packets ds := by
  obtain ⟨hs, hcount⟩ := run_spec hindexed hconsistent hcomplete ni calls
  have hone := Bool.toNat_le (run f (opened f ni) calls).ni
  have hplace : f.idx.length ≤ (run f (opened f ni) calls).place ds := by
    cases hcount ds with
    | inl hle => omega
    | inr hend => exact hend
  have hbehind : ∀ i, f.idx.length ≤ i → f.packetAt ds i = none := by
    intro i hi
    unfold AviFile.packetAt
    rw [List.getElem?_eq_none hi]
    rfl
  rw [hs.delivered]
  exact collect_end hbehind hplace

/-- Whatever is buffered when, what the two readers have delivered to a stream are parts of
one sequence of packets, and once a stream was asked for often enough it is the whole
sequence in both. -/
theorem readers_agree (hindexed : f.Indexed) (hconsistent : f.Consistent) (hcomplete : f.Complete)
    (calls calls' : List Call) (ds : DS) :
    ((run f (opened f false) calls).delivered ds <+: (run f (opened f true) calls').delivered ds ∨
      (run f (opened f true) calls').delivered ds <+: (run f (opened f false) calls).delivered ds) ∧
    (f.idx.length < (calls.map Call.ds).count ds → f.idx.length < (calls'.map Call.ds).count ds →
      (run f (opened f false) calls).delivered ds =
        (run f (opened f true) calls').delivered ds) := by
  constructor
  · obtain ⟨hs, -⟩ := run_spec hindexed hconsistent hcomplete false calls
    obtain ⟨hs', -⟩ := run_spec hindexed hconsistent hcomplete true calls'
    rw [hs.delivered, hs'.delivered]
    exact collect_comparable _ _
  · intro hcalls hcalls'
    rw [run_packets hindexed hconsistent hcomplete false hcalls,
      run_packets hindexed hconsistent hcomplete true hcalls']

/-! ### Files of two chunks -/

/-- A chunk of two bytes. -/
def smallChunk (a b c d : Char) (data : UInt8) : List UInt8 :=
  [a, b, c, d].map (fun x => UInt8.ofNat x.toNat) ++ [2, 0, 0, 0, data, data]

/-- A file with a chunk of the stream 1, which is the audio stream, and one of the stream 0. -/
def twoChunks (idx : List IndexEntry) (bytes : List UInt8) : AviFile where
  bytes := bytes
  idx := idx
  idxOffset := 0
  moviStart := 0
  moviEnd := 20
  audioId := 1
  videoId := 0

def audioEntry (pos : UInt32) : IndexEntry := ⟨fourcc '0' '1' 'w' 'b', 0x10, pos, 2⟩

def videoEntry (pos : UInt32) : IndexEntry := ⟨fourcc '0' '0' 'd' 'c', 0x10, pos, 2⟩

/-- The index is in the order of the file. -/
def inOrder : AviFile :=
  twoChunks [audioEntry 0, videoEntry 10]
    (smallChunk '0' '1' 'w' 'b' 7 ++ smallChunk '0' '0' 'd' 'c' 8)

def calls (packs : Nat) (ds : List DS) : List Call := ds.map fun ds => ⟨ds, fun _ => ⟨packs, 0⟩⟩

theorem pointsToChunk_two {idx : List IndexEntry} {bytes : List UInt8} (hlen : bytes.length = 20)
    (hoff : e.offset ≤ 10) : (twoChunks idx bytes).PointsToChunk e := by
  have hentry : (twoChunks idx bytes).entryPos e = e.offset := Int.zero_add _
  unfold AviFile.PointsToChunk
  rw [hentry, Int.toNat_natCast]
  change e.offset + 8 ≤ bytes.length
  omega

theorem indexed_two {e e' : IndexEntry} {bytes : List UInt8} (hlen : bytes.length = 20)
    (hoff : e.offset ≤ 10 ∧ e'.offset ≤ 10) : (twoChunks [e, e'] bytes).Indexed := by
  intro x hx _ _
  obtain rfl | hx := List.mem_cons.mp hx
  · exact pointsToChunk_two hlen hoff.1
  · obtain rfl := List.mem_singleton.mp hx
    exact pointsToChunk_two hlen hoff.2

theorem inOrder_indexed : inOrder.Indexed := indexed_two rfl (by decide)

theorem inOrder_consistent : inOrder.Consistent := consistent_of_valid (by decide)

theorem inOrder_complete : inOrder.Complete := by
  have hpos : inOrder.idx.foldl inOrder.posAfter inOrder.moviStart.toNat = 20 := by decide
  unfold AviFile.Complete
  rw [hpos]
  exact silent_of_stopped (.inl ⟨by decide, by decide⟩)

/-- The video stream is full at the second call. -/
theorem readers_agree_two :
    (run inOrder (opened inOrder false)
      (calls 0 [.audio] ++ calls 4095 [.video] ++ calls 0 [.video, .video])).delivered .video =
      (run inOrder (opened inOrder true) (calls 0 [.video, .video, .video])).delivered .video :=
  (readers_agree inOrder_indexed inOrder_consistent inOrder_complete _ _ .video).2 (by decide)
    (by decide)

/-- The index lists the second chunk first. -/
def shuffled : AviFile :=
  twoChunks [audioEntry 10, videoEntry 0]
    (smallChunk '0' '0' 'd' 'c' 8 ++ smallChunk '0' '1' 'w' 'b' 7)

/-- The index has an invalid id for a chunk of the video stream, with the number of
the audio stream. -/
def mislabelled : AviFile :=
  twoChunks [⟨fourcc '0' '1' '?' '?', 0x10, 0, 2⟩, videoEntry 10]
    (smallChunk '0' '0' 'd' 'c' 7 ++ smallChunk '0' '0' 'd' 'c' 8)

/-- The interleaved reader delivers the audio chunk of the first file twice, and the other
one delivers the video chunks of the second file in the order in which the streams are
asked for packets. -/
theorem readers_disagree :
    (shuffled.Indexed ∧
      (run shuffled (opened shuffled false) (calls 0 [.audio, .audio, .audio])).delivered .audio ≠
        (run shuffled (opened shuffled true) (calls 0 [.audio, .audio, .audio])).delivered .audio) ∧
    mislabelled.Indexed ∧
      (run mislabelled (opened mislabelled false)
        (calls 0 [.video, .video, .video])).delivered .video ≠
        (run mislabelled (opened mislabelled true)
          (calls 0 [.video, .audio, .video, .video])).delivered .video := by
  refine ⟨⟨?_, by decide⟩, ?_, by decide⟩
  · exact indexed_two rfl (by decide)
  · exact indexed_two rfl (by decide)

end AviDemuxer

end MPlayer.AviDemux
