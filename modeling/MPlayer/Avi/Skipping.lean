import MPlayer.Avi.Agreement
import MPlayer.Avi.AudioPosition

/-!
# Reading on behind a seek

Behind a seek in an interleaved file the readers are in front of the audio chunk, and drop
`skip_video_frames` chunks of the video stream before they deliver one.  As long as nothing was
delivered to the video stream this is the number of video chunks between its place in the index and
the keyframe (`Waiting`), also if the reader is switched meanwhile.
-/

namespace MPlayer.AviDemux

/-- The demuxer with `skip_video_frames`. -/
structure SkippingDemuxer where
  demuxer : AviDemuxer
  skip : Nat

namespace SkippingDemuxer

/-- `demux_avi_read_packet`.  A chunk that is dropped belongs to no stream any more, for which the
return value is 0. -/
def readPacket (f : AviFile) (s : SkippingDemuxer) (ds : Option DS) (c : Chunk) (idxpos : Int) :
    Bool × SkippingDemuxer :=
  if ds = some .video ∧ 0 < s.skip then
    (false, ⟨s.demuxer.readPacket f none c idxpos, s.skip - 1⟩)
  else (ds.isSome, ⟨s.demuxer.readPacket f ds c idxpos, s.skip⟩)

/-- The position in the index and in the file, as the reader of an entry changes them. -/
def moveTo (s : SkippingDemuxer) (pos : Nat) : SkippingDemuxer :=
  { s with demuxer := { s.demuxer with pos := pos } }

def advance (s : SkippingDemuxer) (ds : DS) : SkippingDemuxer :=
  { s with demuxer := s.demuxer.advance ds }

def advanceIdx (s : SkippingDemuxer) : SkippingDemuxer :=
  { s with demuxer := { s.demuxer with idxPos := s.demuxer.idxPos + 1 } }

/-! ## `demux_avi_fill_buffer` -/

/-- A chunk does not fit into the buffers of its stream. -/
def overflows (f : AviFile) (load : DS → Load) (c : Chunk) : Bool :=
  (f.selectStream c.id).any fun ds => decide (AviDemuxer.Overflows (load ds) c.len)

/-- The end of a turn, which has found a chunk.  Without a return value there is another turn. -/
def endTurn (f : AviFile) (load : DS → Load) (s : SkippingDemuxer) (c : Chunk) :
    Option Return × SkippingDemuxer :=
  if overflows f load c then (some .switched, { s with demuxer := s.demuxer.switchToNi })
  else
    let (ret, s) := s.readPacket f (f.selectStream c.id) c (s.demuxer.idxPos - 1)
    (if ret then some .packet else none, s)

/-- The turns behind the last entry of the index. -/
def fillBehind (f : AviFile) (load : DS → Load) : Nat → SkippingDemuxer → Return × SkippingDemuxer
  | 0, s => (.eof, s)
  | fuel + 1, s =>
    if (s.demuxer.pos : Int) ≥ f.moviEnd ∧ f.moviEnd > f.moviStart then (.eof, s)
    else
      let (id, pos) := AviDemuxer.findId f s.demuxer.pos
      let len := f.readDword pos
      if f.Eof (pos + 4) then (.eof, s.moveTo f.bytes.length)
      else if id = fourcc 'L' 'I' 'S' 'T' ∨ id = fourcc 'R' 'I' 'F' 'F' then
        fillBehind f load fuel (s.moveTo (pos + 8))
      else
        match endTurn f load s ⟨id, len, true, pos + 4⟩ with
        | (none, s) => fillBehind f load fuel s
        | (some ret, s) => (ret, s)

/-- The turns on the entries of the index from `idx_pos` on, and those behind it. -/
def fillIndexed (f : AviFile) (load : DS → Load) :
    List IndexEntry → SkippingDemuxer → Return × SkippingDemuxer
  | [], s => fillBehind f load (f.bytes.length + 1) s
  | e :: es, s =>
    let s := s.advanceIdx
    if f.Passed e then fillIndexed f load es s
    else
      match f.readHeader e with
      | .eof => (.eof, s.moveTo f.bytes.length)
      | .dropped pos => fillIndexed f load es (s.moveTo pos)
      | .chunk c =>
        match endTurn f load s c with
        | (none, s) => fillIndexed f load es s
        | (some ret, s) => (ret, s)

/-! ## `demux_avi_fill_buffer_ni` -/

/-- The turns on the entries of the index from the position of the stream on. -/
def fillNi (f : AviFile) (ds : DS) : List IndexEntry → SkippingDemuxer → Return × SkippingDemuxer
  | [], s => (.eof, s.advance ds)
  | e :: es, s =>
    let idxPos := s.demuxer.cursor ds
    let s := s.advance ds
    if f.Passed e ∨ f.selectStream e.ckid ≠ some ds then fillNi f ds es s
    else
      match f.readHeader e with
      | .eof => (.eof, s.moveTo f.bytes.length)
      | .dropped pos => fillNi f ds es (s.moveTo pos)
      | .chunk c =>
        match s.readPacket f (f.selectStream c.id) c idxPos with
        | (false, s) => fillNi f ds es s
        | (true, s) => (.packet, s)

/-! ## Runs -/

/-- `demux_fill_buffer`. -/
def fillBuffer (f : AviFile) (s : SkippingDemuxer) (call : AviDemuxer.Call) :
    Return × SkippingDemuxer :=
  if s.demuxer.ni then fillNi f call.ds (f.idx.drop (s.demuxer.cursor call.ds)) s
  else fillIndexed f call.load (f.idx.drop s.demuxer.idxPos) s

/-- The demuxer after a sequence of calls. -/
def run (f : AviFile) (s : SkippingDemuxer) (calls : List AviDemuxer.Call) : SkippingDemuxer :=
  calls.foldl (fun s call => (fillBuffer f s call).2) s

/-- The demuxer behind a seek, with the file at any position. -/
def sought (s : Sought) (ni : Bool) (pos : Nat) : SkippingDemuxer where
  demuxer :=
    { idxPos := s.idxPos
      idxPosA := s.idxPosA
      idxPosV := s.idxPosV
      pos := pos
      ni := ni
      delivered := fun _ => [] }
  skip := s.skipVideoFrames

end SkippingDemuxer

/-! ## The first packet -/

namespace AviFile

variable {f : AviFile} {a b : Nat}

theorem videoChunks_self (a : Nat) : f.videoChunks a a = 0 := by
  unfold videoChunks
  rw [List.drop_eq_nil_of_le (List.length_take_le _ _)]
  rfl

theorem videoChunks_step {e : IndexEntry} (he : f.idx[a]? = some e) (hlt : a < b) :
    f.videoChunks a b = f.videoChunks (a + 1) b + if f.isVideo e then 1 else 0 := by
  have hget : (f.idx.take b)[a]? = some e := by rw [List.getElem?_take_of_lt hlt, he]
  obtain ⟨hlen, heq⟩ := List.getElem?_eq_some_iff.mp hget
  unfold videoChunks
  rw [List.drop_eq_getElem_cons hlen, heq, List.countP_cons]

/-- The reader takes an entry for a chunk of the video stream. -/
def ReadsVideo (f : AviFile) (e : IndexEntry) : Prop :=
  ¬f.Passed e ∧ ∃ c, f.readHeader e = .chunk c ∧ f.selectStream c.id = some .video

/-- From the entry `a` of the index on, the video chunks that are read are those of entries for the
video stream.  Up to `b` each of these leads to one, and there is one at `b`. -/
structure DescribesVideo (f : AviFile) (a b : Nat) : Prop where
  consistent : ∀ i e, a ≤ i → f.idx[i]? = some e → f.ReadsVideo e →
    f.selectStream e.ckid = some .video
  reads : ∀ i e, a ≤ i → i ≤ b → f.idx[i]? = some e → f.isVideo e → f.ReadsVideo e
  chosen : (f.packetAt .video b).isSome

theorem selectStream_video {id : UInt32} (h : f.selectStream id = some .video) :
    (streamId id : Int) = f.videoId := by
  unfold selectStream at h
  split at h
  · cases h
  · split at h
    · assumption
    · cases h

theorem DescribesVideo.isVideo (h : f.DescribesVideo a b) {i : Nat} {e : IndexEntry} (hi : a ≤ i)
    (he : f.idx[i]? = some e) (hreads : f.ReadsVideo e) : f.isVideo e :=
  decide_eq_true (selectStream_video (h.consistent i e hi he hreads))

end AviFile

namespace SkippingDemuxer

open Lib

variable {f : AviFile} {a v : Nat} {s : SkippingDemuxer}

/-- The readers are behind `a`.  Nothing was delivered to the video stream, and what is to be
dropped is in front of `v`. -/
structure Waiting (f : AviFile) (a v : Nat) (s : SkippingDemuxer) : Prop where
  start : ∀ ds, a ≤ s.demuxer.place ds
  place : s.demuxer.place .video ≤ v
  skip : s.skip = f.videoChunks (s.demuxer.place .video) v
  delivered : s.demuxer.delivered .video = []

/-- The first packet that was delivered to the video stream is the one of the entry `v`. -/
def Delivered (f : AviFile) (v : Nat) (s : SkippingDemuxer) : Prop :=
  ∃ p ps, s.demuxer.delivered .video = p :: ps ∧ f.packetAt .video v = some p

/-- A chunk is read for its stream, or for none. -/
theorem readPacket_demuxer (ds : Option DS) (c : Chunk) (i : Int) :
    (s.readPacket f ds c i).2.demuxer =
      s.demuxer.readPacket f (if ds = some .video ∧ 0 < s.skip then none else ds) c i := by
  unfold readPacket
  split <;> rfl

variable {load : DS → Load} {c : Chunk} {s' : SkippingDemuxer} {es : List IndexEntry}

theorem endTurn_cases {ret : Option Return} (h : endTurn f load s c = (ret, s')) :
    s' = { s with demuxer := s.demuxer.switchToNi } ∧ ret ≠ none ∨
      s' = (s.readPacket f (f.selectStream c.id) c (s.demuxer.idxPos - 1)).2 := by
  unfold endTurn at h
  split at h
  · obtain ⟨hret, hs⟩ := Prod.mk.inj h
    exact .inl ⟨hs.symm, hret ▸ Option.some_ne_none _⟩
  · exact .inr (Prod.mk.inj h).2.symm

/-! ### Nothing is taken back -/

theorem readPacket_isPrefix (ds : Option DS) (c : Chunk) (i : Int) (d : DS) :
    s.demuxer.delivered d <+: (s.readPacket f ds c i).2.demuxer.delivered d := by
  rw [readPacket_demuxer, AviDemuxer.readPacket_delivered]
  exact List.prefix_append _ _

theorem endTurn_isPrefix {ret : Option Return} (h : endTurn f load s c = (ret, s')) (d : DS) :
    s.demuxer.delivered d <+: s'.demuxer.delivered d := by
  unfold endTurn at h
  split at h
  · rw [← (Prod.mk.inj h).2]
    exact List.prefix_refl _
  · rw [← (Prod.mk.inj h).2]
    exact readPacket_isPrefix _ _ _ _

theorem fillBehind_isPrefix (load : DS → Load) (fuel : Nat) (s : SkippingDemuxer) (d : DS) :
    s.demuxer.delivered d <+: (fillBehind f load fuel s).2.demuxer.delivered d := by
  induction fuel generalizing s with
  | zero => exact List.prefix_refl _
  | succ fuel ih =>
    simp only [fillBehind]
    split
    · exact List.prefix_refl _
    · split
      · exact List.prefix_refl _
      · split
        · exact ih (s.moveTo ((AviDemuxer.findId f s.demuxer.pos).2 + 8))
        · split
          · next s' hturn => exact (endTurn_isPrefix hturn d).trans (ih s')
          · next s' hturn => exact endTurn_isPrefix hturn d

theorem fillIndexed_isPrefix (load : DS → Load) (es : List IndexEntry) (s : SkippingDemuxer)
    (d : DS) : s.demuxer.delivered d <+: (fillIndexed f load es s).2.demuxer.delivered d := by
  induction es generalizing s with
  | nil => exact fillBehind_isPrefix load _ s d
  | cons e es ih =>
    simp only [fillIndexed]
    split
    · exact ih s.advanceIdx
    · split
      · exact List.prefix_refl _
      · next pos _ => exact ih (s.advanceIdx.moveTo pos)
      · split
        · next s' hturn => exact (endTurn_isPrefix (s := s.advanceIdx) hturn d).trans (ih s')
        · next s' hturn => exact endTurn_isPrefix (s := s.advanceIdx) hturn d

theorem fillNi_isPrefix (ds : DS) (es : List IndexEntry) (s : SkippingDemuxer) (d : DS) :
    s.demuxer.delivered d <+: (fillNi f ds es s).2.demuxer.delivered d := by
  have hadvance : ∀ s : SkippingDemuxer,
      (s.advance ds).demuxer.delivered d = s.demuxer.delivered d := fun s =>
    congrFun (AviDemuxer.advance_delivered (s := s.demuxer) ds) d
  induction es generalizing s with
  | nil =>
    simp only [fillNi, hadvance]
    exact List.prefix_refl _
  | cons e es ih =>
    simp only [fillNi]
    rw [← hadvance s]
    split
    · exact ih _
    · split
      · exact List.prefix_refl _
      · next pos _ => exact ih ((s.advance ds).moveTo pos)
      · next c _ =>
        have hhead := readPacket_isPrefix (f := f) (s := s.advance ds) (f.selectStream c.id) c
          (s.demuxer.cursor ds) d
        split
        · next s' hread =>
          rw [hread] at hhead
          exact hhead.trans (ih s')
        · next s' hread =>
          rw [hread] at hhead
          exact hhead

theorem Delivered.mono (h : Delivered f v s)
    (hpre : s.demuxer.delivered .video <+: s'.demuxer.delivered .video) : Delivered f v s' := by
  obtain ⟨p, ps, hdelivered, hpacket⟩ := h
  obtain ⟨qs, hqs⟩ := hpre
  exact ⟨p, ps ++ qs, by rw [← hqs, hdelivered]; rfl, hpacket⟩

/-! ### An entry of the index -/

theorem Waiting.congr (h : Waiting f a v s)
    (hplace : s'.demuxer.place .video = s.demuxer.place .video)
    (hmono : s.demuxer.place .audio ≤ s'.demuxer.place .audio) (hskip : s'.skip = s.skip)
    (hdelivered : s'.demuxer.delivered .video = s.demuxer.delivered .video) : Waiting f a v s' := by
  obtain ⟨hstart, hle, hcount, hnil⟩ := h
  refine ⟨fun ds => ?_, hplace ▸ hle, by rw [hskip, hplace, hcount], hdelivered.trans hnil⟩
  cases ds with
  | video => exact hplace ▸ hstart .video
  | audio => exact Nat.le_trans (hstart .audio) hmono

theorem Waiting.start_le (h : Waiting f a v s) : a ≤ v := Nat.le_trans (h.start .video) h.place

variable (hdescribes : f.DescribesVideo a v)

include hdescribes

theorem isVideo_chosen (hle : a ≤ v) : ∃ e, f.idx[v]? = some e ∧ f.isVideo e := by
  have hchosen := hdescribes.chosen
  unfold AviFile.packetAt at hchosen
  cases hget : f.idx[v]? with
  | none =>
    rw [hget] at hchosen
    cases hchosen
  | some e =>
    rw [hget] at hchosen
    refine ⟨e, rfl, hdescribes.isVideo hle hget ?_⟩
    simp only [Option.bind_some, AviFile.packetFor] at hchosen
    split at hchosen
    · cases hchosen
    · next hpassed =>
      split at hchosen
      · next c hheader =>
        split at hchosen
        · next hselect => exact ⟨hpassed, c, hheader, hselect⟩
        · cases hchosen
      · cases hchosen

/-- The reader is done with an entry of another stream. -/
theorem Waiting.other {e : IndexEntry} (h : Waiting f a v s)
    (he : f.idx[s.demuxer.place .video]? = some e) (hother : ¬f.ReadsVideo e)
    (hplace : s'.demuxer.place .video = s.demuxer.place .video + 1)
    (hmono : s.demuxer.place .audio ≤ s'.demuxer.place .audio) (hskip : s'.skip = s.skip)
    (hdelivered : s'.demuxer.delivered .video = s.demuxer.delivered .video) : Waiting f a v s' := by
  have hnot : ¬f.isVideo e := fun hvideo =>
    hother (hdescribes.reads _ e (h.start .video) h.place he hvideo)
  obtain ⟨ev, hev, hchosen⟩ := isVideo_chosen hdescribes (h.start_le)
  have hne : s.demuxer.place .video ≠ v := by
    intro heq
    rw [heq, hev] at he
    exact hnot (Option.some.inj he ▸ hchosen)
  have hlt : s.demuxer.place .video < v := Nat.lt_of_le_of_ne h.place hne
  have hcount := f.videoChunks_step he hlt
  rw [if_neg hnot, Nat.add_zero] at hcount
  refine ⟨fun ds => ?_, hplace ▸ hlt, by rw [hskip, hplace, ← hcount, h.skip],
    hdelivered.trans h.delivered⟩
  cases ds with
  | video => exact hplace ▸ Nat.le_succ_of_le (h.start .video)
  | audio => exact Nat.le_trans (h.start .audio) hmono

/-- The reader has found the chunk of an entry, and its place is behind the entry. -/
theorem Waiting.readPacket {t : SkippingDemuxer} {e : IndexEntry} {n : Nat} (h : Waiting f a v s)
    (hn : s.demuxer.place .video = n) (he : f.idx[n]? = some e) (hpassed : ¬f.Passed e)
    (hheader : f.readHeader e = .chunk c) (hplace : t.demuxer.place .video = n + 1)
    (hmono : s.demuxer.place .audio ≤ t.demuxer.place .audio) (hskip : t.skip = s.skip)
    (hdelivered : t.demuxer.delivered .video = s.demuxer.delivered .video) :
    Waiting f a v (t.readPacket f (f.selectStream c.id) c n).2 ∨
      Delivered f v (t.readPacket f (f.selectStream c.id) c n).2 := by
  subst hn
  by_cases hselect : f.selectStream c.id = some .video
  · have hvideo := hdescribes.isVideo (h.start .video) he ⟨hpassed, c, hheader, hselect⟩
    unfold SkippingDemuxer.readPacket
    by_cases hpos : 0 < t.skip
    · rw [if_pos ⟨hselect, hpos⟩]
      left
      have hlt : s.demuxer.place .video < v := by
        refine Nat.lt_of_le_of_ne h.place fun heq => ?_
        have hzero := h.skip
        rw [heq, f.videoChunks_self] at hzero
        omega
      have hcount := f.videoChunks_step he hlt
      rw [if_pos hvideo] at hcount
      refine ⟨fun ds => ?_, ?_, ?_, ?_⟩
      · rw [AviDemuxer.readPacket_place]
        cases ds with
        | video => exact hplace ▸ Nat.le_succ_of_le (h.start .video)
        | audio => exact Nat.le_trans (h.start .audio) hmono
      · rw [AviDemuxer.readPacket_place, hplace]
        exact hlt
      · rw [AviDemuxer.readPacket_place, hplace]
        have hskipped := h.skip
        dsimp only
        omega
      · rw [AviDemuxer.readPacket_delivered, hdelivered, h.delivered]
        rfl
    · rw [if_neg fun hand => hpos hand.2]
      right
      have hv : s.demuxer.place .video = v := by
        refine Nat.le_antisymm h.place (Nat.not_lt.mp fun hlt => ?_)
        have hcount := f.videoChunks_step he hlt
        rw [if_pos hvideo] at hcount
        have hskipped := h.skip
        omega
      have hpacket : f.packetAt .video v =
          (f.payload c).map fun data => ⟨data, (v : Int), c.flags⟩ := by
        rw [← hv, AviDemuxer.packetAt_eq he]
        unfold AviFile.packetFor
        rw [if_neg hpassed, hheader]
        exact if_pos hselect
      obtain ⟨p, hp⟩ := Option.isSome_iff_exists.mp hdescribes.chosen
      refine ⟨p, [], ?_, hp⟩
      rw [AviDemuxer.readPacket_delivered, hdelivered, h.delivered, if_pos hselect, hv, ← hpacket,
        hp]
      rfl
  · left
    have hread : (t.readPacket f (f.selectStream c.id) c (s.demuxer.place .video)).2 =
        ⟨t.demuxer.readPacket f (f.selectStream c.id) c (s.demuxer.place .video), t.skip⟩ := by
      unfold SkippingDemuxer.readPacket
      rw [if_neg fun hand => hselect hand.1]
    rw [hread]
    refine h.other hdescribes he ?_ ?_ ?_ hskip ?_
    · rintro ⟨-, c', hheader', hselect'⟩
      cases hheader.symm.trans hheader'
      exact hselect hselect'
    · rw [AviDemuxer.readPacket_place, hplace]
    · rw [AviDemuxer.readPacket_place]
      exact hmono
    · rw [AviDemuxer.readPacket_delivered, if_neg hselect, hdelivered]
      exact List.append_nil _

/-- `demux_avi_fill_buffer` delivers the packet of `v` first. -/
theorem Waiting.fillIndexed (h : Waiting f a v s) (hni : s.demuxer.ni = false)
    (hes : f.idx.drop s.demuxer.idxPos = es) :
    Waiting f a v (fillIndexed f load es s).2 ∨ Delivered f v (fillIndexed f load es s).2 := by
  induction es generalizing s with
  | nil =>
    obtain ⟨e, hget, -⟩ := isVideo_chosen hdescribes h.start_le
    obtain ⟨hlt, -⟩ := List.getElem?_eq_some_iff.mp hget
    have hend := List.drop_eq_nil_iff.mp hes
    have hplace := h.place
    rw [AviDemuxer.place_indexed hni] at hplace
    omega
  | cons e es ih =>
    obtain ⟨he, hrest⟩ := AviDemuxer.getElem?_of_drop hes
    have hplace : s.demuxer.place .video = s.demuxer.idxPos := AviDemuxer.place_indexed hni _
    have hplace' : ∀ ds, s.advanceIdx.demuxer.place ds = s.demuxer.idxPos + 1 :=
      AviDemuxer.place_indexed (s := s.advanceIdx.demuxer) hni
    have hmono : s.demuxer.place .audio ≤ s.advanceIdx.demuxer.place .audio := by
      rw [hplace', AviDemuxer.place_indexed hni]
      exact Nat.le_succ _
    have hother : ¬f.ReadsVideo e → ∀ pos, Waiting f a v (s.advanceIdx.moveTo pos) :=
      fun hnot pos => h.other hdescribes (hplace ▸ he) hnot
        (by rw [hplace]; exact hplace' .video) hmono rfl rfl
    simp only [SkippingDemuxer.fillIndexed]
    split
    · next hpassed =>
      exact ih (hother (fun hreads => hreads.1 hpassed) s.demuxer.pos) hni hrest
    · next hpassed =>
      split
      · next hheader =>
        refine .inl (hother ?_ _)
        rintro ⟨-, c, hchunk, -⟩
        cases hheader.symm.trans hchunk
      · next pos hheader =>
        refine ih (hother ?_ pos) hni hrest
        rintro ⟨-, c, hchunk, -⟩
        cases hheader.symm.trans hchunk
      · next c hheader =>
        have hread := h.readPacket hdescribes (t := s.advanceIdx) hplace he hpassed hheader
          (hplace' .video) hmono rfl rfl
        have hpos : (s.advanceIdx.demuxer.idxPos : Int) - 1 = s.demuxer.idxPos := by
          change ((s.demuxer.idxPos + 1 : Nat) : Int) - 1 = s.demuxer.idxPos
          omega
        rw [← hpos] at hread
        split
        · next s' hturn =>
          obtain ⟨-, hret⟩ | hs := endTurn_cases hturn
          · exact absurd rfl hret
          · rw [← hs] at hread
            cases hread with
            | inl hwaiting =>
              refine ih hwaiting ?_ ?_
              · rw [hs, readPacket_demuxer, AviDemuxer.readPacket_ni]
                exact hni
              · rw [hs, readPacket_demuxer, AviDemuxer.readPacket_idxPos]
                exact hrest
            | inr hdelivered =>
              exact .inr (hdelivered.mono (fillIndexed_isPrefix load es s' .video))
        · next s' hturn =>
          obtain ⟨hs, -⟩ | hs := endTurn_cases hturn
          · refine .inl (h.congr ?_ ?_ (by rw [hs]; rfl) (by rw [hs]; rfl))
            · rw [hplace, hs]
              rfl
            · rw [AviDemuxer.place_indexed hni, hs]
              exact Nat.le_refl _
          · rwa [← hs] at hread

/-- `demux_avi_fill_buffer_ni` delivers the packet of `v` first, if it is called for the
video stream. -/
theorem Waiting.fillNi (h : Waiting f a v s) (hni : s.demuxer.ni = true)
    (hes : f.idx.drop (s.demuxer.cursor .video) = es) :
    Waiting f a v (fillNi f .video es s).2 ∨ Delivered f v (fillNi f .video es s).2 := by
  induction es generalizing s with
  | nil =>
    obtain ⟨e, hget, -⟩ := isVideo_chosen hdescribes h.start_le
    obtain ⟨hlt, -⟩ := List.getElem?_eq_some_iff.mp hget
    have hend := List.drop_eq_nil_iff.mp hes
    have hplace := h.place
    rw [AviDemuxer.place_ni hni] at hplace
    omega
  | cons e es ih =>
    obtain ⟨he, hrest⟩ := AviDemuxer.getElem?_of_drop hes
    have hplace : s.demuxer.place .video = s.demuxer.cursor .video := AviDemuxer.place_ni hni _
    have hplace' : (s.advance .video).demuxer.place .video = s.demuxer.cursor .video + 1 :=
      AviDemuxer.place_ni (s := (s.advance .video).demuxer) hni _
    have hmono : ∀ pos, s.demuxer.place .audio ≤
        ((s.advance .video).moveTo pos).demuxer.place .audio := fun pos => by
      rw [AviDemuxer.place_ni hni,
        AviDemuxer.place_ni (s := ((s.advance .video).moveTo pos).demuxer) hni]
      exact Nat.le_refl _
    have hother : ¬f.ReadsVideo e → ∀ pos, Waiting f a v ((s.advance .video).moveTo pos) :=
      fun hnot pos => h.other hdescribes (hplace ▸ he) hnot (by rw [hplace]; exact hplace')
        (hmono pos) rfl rfl
    simp only [SkippingDemuxer.fillNi]
    split
    · next hpassed =>
      refine ih (hother ?_ s.demuxer.pos) hni hrest
      intro hreads
      cases hpassed with
      | inl hpassed => exact hreads.1 hpassed
      | inr hne => exact hne (hdescribes.consistent _ e (hplace ▸ h.start .video) he hreads)
    · next hpassed =>
      split
      · next hheader =>
        refine .inl (hother ?_ _)
        rintro ⟨-, c, hchunk, -⟩
        cases hheader.symm.trans hchunk
      · next pos hheader =>
        refine ih (hother ?_ pos) hni hrest
        rintro ⟨-, c, hchunk, -⟩
        cases hheader.symm.trans hchunk
      · next c hheader =>
        have hread := h.readPacket hdescribes (t := s.advance .video) hplace he
          (fun hp => hpassed (.inl hp)) hheader hplace' (hmono s.demuxer.pos) rfl rfl
        split
        · next s' hturn =>
          have hs : s' = _ := (congrArg Prod.snd hturn).symm
          rw [← hs] at hread
          cases hread with
          | inl hwaiting =>
            refine ih hwaiting ?_ ?_
            · rw [hs, readPacket_demuxer, AviDemuxer.readPacket_ni]
              exact hni
            · rw [hs, readPacket_demuxer, AviDemuxer.readPacket_cursor]
              exact hrest
          | inr hdelivered =>
            exact .inr (hdelivered.mono (fillNi_isPrefix .video es s' .video))
        · next s' hturn =>
          have hs : s' = _ := (congrArg Prod.snd hturn).symm
          rwa [← hs] at hread

/-- Called for the audio stream it leaves the video stream as it is. -/
theorem Waiting.fillNi_audio (h : Waiting f a v s) (hni : s.demuxer.ni = true)
    (hes : f.idx.drop (s.demuxer.cursor .audio) = es) :
    Waiting f a v (SkippingDemuxer.fillNi f .audio es s).2 := by
  have hadvance : ∀ {s : SkippingDemuxer} (pos : Nat), Waiting f a v s → s.demuxer.ni = true →
      Waiting f a v ((s.advance .audio).moveTo pos) := fun {s} pos h hni => by
    have hplace : ∀ ds, ((s.advance .audio).moveTo pos).demuxer.place ds =
        (s.advance .audio).demuxer.cursor ds :=
      AviDemuxer.place_ni (s := ((s.advance .audio).moveTo pos).demuxer) hni
    refine h.congr ?_ ?_ rfl rfl
    · rw [hplace, AviDemuxer.place_ni hni]
      rfl
    · rw [hplace, AviDemuxer.place_ni hni]
      exact Nat.le_succ _
  induction es generalizing s with
  | nil => exact hadvance s.demuxer.pos h hni
  | cons e es ih =>
    obtain ⟨he, hrest⟩ := AviDemuxer.getElem?_of_drop hes
    have hplace : s.demuxer.place .audio = s.demuxer.cursor .audio := AviDemuxer.place_ni hni _
    simp only [SkippingDemuxer.fillNi]
    split
    · exact ih (hadvance s.demuxer.pos h hni) hni hrest
    · next hpassed =>
      split
      · exact hadvance _ h hni
      · exact ih (hadvance _ h hni) hni hrest
      · next c hheader =>
        have hselect : f.selectStream c.id ≠ some .video := by
          intro hselect
          have hvideo := hdescribes.consistent _ e (hplace ▸ h.start .audio) he
            ⟨fun hp => hpassed (.inl hp), c, hheader, hselect⟩
          have haudio : f.selectStream e.ckid = some .audio :=
            not_not.mp fun hne => hpassed (.inr hne)
          cases hvideo.symm.trans haudio
        have hread : Waiting f a v ((s.advance .audio).readPacket f (f.selectStream c.id) c
            (s.demuxer.cursor .audio)).2 := by
          have hplaceRead := AviDemuxer.readPacket_place (f := f)
            (s := (s.advance .audio).demuxer) (f.selectStream c.id) c (s.demuxer.cursor .audio)
          have hkept : (s.advance .audio).readPacket f (f.selectStream c.id) c
              (s.demuxer.cursor .audio) = ((f.selectStream c.id).isSome,
                ⟨(s.advance .audio).demuxer.readPacket f (f.selectStream c.id) c
                  (s.demuxer.cursor .audio), s.skip⟩) := if_neg fun hand => hselect hand.1
          rw [hkept]
          refine (hadvance s.demuxer.pos h hni).congr ?_ ?_ rfl ?_
          · rw [hplaceRead]
            rfl
          · rw [hplaceRead]
            exact Nat.le_refl _
          · rw [AviDemuxer.readPacket_delivered, if_neg hselect]
            exact List.append_nil _
        split
        · next s' hturn =>
          have hs : s' = _ := (congrArg Prod.snd hturn).symm
          rw [← hs] at hread
          refine ih hread ?_ ?_
          · rw [hs, readPacket_demuxer, AviDemuxer.readPacket_ni]
            exact hni
          · rw [hs, readPacket_demuxer, AviDemuxer.readPacket_cursor]
            exact hrest
        · next s' hturn =>
          have hs : s' = _ := (congrArg Prod.snd hturn).symm
          rwa [← hs] at hread

theorem Waiting.fillBuffer (h : Waiting f a v s) (call : AviDemuxer.Call) :
    Waiting f a v (fillBuffer f s call).2 ∨ Delivered f v (fillBuffer f s call).2 := by
  unfold SkippingDemuxer.fillBuffer
  cases hni : s.demuxer.ni with
  | false => exact h.fillIndexed hdescribes hni rfl
  | true =>
    rw [if_pos rfl]
    cases call.ds with
    | video => exact h.fillNi hdescribes hni rfl
    | audio => exact .inl (h.fillNi_audio hdescribes hni rfl)

omit hdescribes in
theorem Delivered.run (h : Delivered f v s) (calls : List AviDemuxer.Call) :
    Delivered f v (run f s calls) := by
  induction calls generalizing s with
  | nil => exact h
  | cons call calls ih =>
    refine ih (h.mono ?_)
    unfold SkippingDemuxer.fillBuffer
    dsimp only
    split
    · exact fillNi_isPrefix _ _ s .video
    · exact fillIndexed_isPrefix _ _ s .video

theorem Waiting.run (h : Waiting f a v s) (calls : List AviDemuxer.Call) :
    Waiting f a v (run f s calls) ∨ Delivered f v (run f s calls) := by
  induction calls generalizing s with
  | nil => exact .inl h
  | cons call calls ih =>
    cases h.fillBuffer hdescribes call with
    | inl hwaiting => exact ih hwaiting
    | inr hdelivered => exact .inr (hdelivered.run calls)

end SkippingDemuxer

/-! ## A seek -/

namespace AviFile

open SkippingDemuxer

variable (f : AviFile)

theorem seek_waiting (audio : Option AudioHeader) (pos : Nat) (t : Target) (filePos : Nat) :
    Waiting f (f.seek false audio pos t).idxPos (f.seekVideo pos t)
      (sought (f.seek false audio pos t) false filePos) := by
  have hself := f.videoChunks_self (f.seekVideo pos t)
  unfold seek
  cases audio with
  | none => exact ⟨fun _ => Nat.le_refl _, Nat.le_refl _, hself.symm, rfl⟩
  | some h =>
    simp only [Bool.false_eq_true, if_false]
    split
    · next hlt => exact ⟨fun _ => Nat.le_refl _, Nat.le_of_lt hlt, rfl, rfl⟩
    · exact ⟨fun _ => Nat.le_refl _, Nat.le_refl _, hself.symm, rfl⟩

/-- Behind a seek the audio position says what is in front of `audio_chunk_pos` in the cases of
`AudioMeets`.  In an interleaved file the video chunks between the place where the reader goes on
and the keyframe are dropped, so that the first packet of the video stream is the keyframe if the
index describes the chunks of that stream. -/
theorem seek_position (ni : Bool) (h : AudioHeader) (pos : Nat) (t : Target) :
    ((∀ a, (f.seek ni (some h) pos t).audio = some a → f.AudioPositioned h a) ↔
        f.AudioMeets h (if ni then f.idx.length else f.seekVideo pos t)
          (t.audioPos (f.videoChunks 0 (f.seekVideo pos t)))) ∧
      (ni = false →
        (f.seek ni (some h) pos t).skipVideoFrames =
            f.videoChunks (f.seek ni (some h) pos t).idxPos (f.seekVideo pos t) ∧
          (f.DescribesVideo (f.seek ni (some h) pos t).idxPos (f.seekVideo pos t) →
            ∀ filePos calls p ps,
              (run f (sought (f.seek ni (some h) pos t) ni filePos) calls).demuxer.delivered
                  .video = p :: ps →
                f.packetAt .video (f.seekVideo pos t) = some p)) := by
  refine ⟨?_, ?_⟩
  · have haudio : (f.seek ni (some h) pos t).audio = some (f.seekAudio h
        (if ni then f.idx.length else f.seekVideo pos t)
        (t.audioPos (f.videoChunks 0 (f.seekVideo pos t)))) := by
      unfold seek
      dsimp only
      split_ifs <;> rfl
    rw [haudio, ← seekAudio_positioned_iff]
    exact ⟨fun hall => hall _ rfl, fun hpos a ha => Option.some.inj ha ▸ hpos⟩
  · rintro rfl
    have hwaiting := f.seek_waiting (some h) pos t
    refine ⟨(hwaiting 0).skip, fun hdescribes filePos calls p ps hdelivered => ?_⟩
    cases (hwaiting filePos).run hdescribes calls with
    | inl hnone => cases hnone.delivered.symm.trans hdelivered
    | inr hsome =>
      obtain ⟨p', ps', hdelivered', hpacket⟩ := hsome
      cases hdelivered.symm.trans hdelivered'
      exact hpacket

/-! ### A file of five chunks -/

/-- A file with two audio chunks between three video frames. -/
def fiveChunks : AviFile where
  bytes := AviDemuxer.smallChunk '0' '0' 'd' 'c' 1 ++ AviDemuxer.smallChunk '0' '1' 'w' 'b' 2 ++
    AviDemuxer.smallChunk '0' '0' 'd' 'c' 3 ++ AviDemuxer.smallChunk '0' '1' 'w' 'b' 4 ++
    AviDemuxer.smallChunk '0' '0' 'd' 'c' 5
  idx := [AviDemuxer.videoEntry 0, AviDemuxer.audioEntry 10, AviDemuxer.videoEntry 20,
    AviDemuxer.audioEntry 30, AviDemuxer.videoEntry 40]
  idxOffset := 0
  moviStart := 0
  moviEnd := 50
  audioId := 1
  videoId := 0

/-- Blocks of two bytes. -/
def smallBlocks (constantRate : Bool) : AudioHeader := ⟨constantRate, 2, by decide, by decide⟩

/-- Two frames forward, with the byte or the block 1 of the audio stream. -/
def lastFrame : Target := ⟨false, 2, fun _ => 1⟩

theorem fiveChunks_describes : fiveChunks.DescribesVideo 1 4 where
  consistent i e _ he hreads := by
    obtain ⟨hpassed, c, hheader, hselect⟩ := hreads
    exact AviDemuxer.consistent_of_valid (by decide) e (List.mem_of_getElem? he) hpassed c .video
      hheader hselect
  reads i e hstart hend he hvideo := by
    have hi : i = 1 ∨ i = 2 ∨ i = 3 ∨ i = 4 := by omega
    obtain rfl | rfl | rfl | rfl := hi
    · cases he
      exact absurd hvideo (by decide)
    · cases he
      exact ⟨by decide, ⟨fourcc '0' '0' 'd' 'c', 2, true, 28⟩, by decide,
        by decide⟩
    · cases he
      exact absurd hvideo (by decide)
    · cases he
      exact ⟨by decide, ⟨fourcc '0' '0' 'd' 'c', 2, true, 48⟩, by decide,
        by decide⟩
  chosen := by decide

/-- With a constant rate one frame is dropped. -/
theorem seek_position_constant :
    fiveChunks.AudioPositioned (smallBlocks true) ⟨1, .start, 1⟩ ∧
      ∀ filePos calls p ps,
        (run fiveChunks (sought (fiveChunks.seek false (some (smallBlocks true)) 0 lastFrame) false
            filePos) calls).demuxer.delivered .video = p :: ps →
          fiveChunks.packetAt .video 4 = some p := by
  obtain ⟨hposition, hpacket⟩ := fiveChunks.seek_position false (smallBlocks true) 0 lastFrame
  exact ⟨hposition.mpr (by decide) _ (by decide),
    (hpacket rfl).2 fiveChunks_describes⟩

/-- With a variable rate the chunk at `audio_chunk_pos` is counted. -/
theorem seek_variable_not_positioned :
    (fiveChunks.seek false (some (smallBlocks false)) 0 lastFrame).audio = some ⟨1, ⟨1, 2, 1⟩, 0⟩ ∧
      ¬fiveChunks.AudioPositioned (smallBlocks false) ⟨1, ⟨1, 2, 1⟩, 0⟩ :=
  ⟨by decide, by
    unfold AudioPositioned
    decide⟩

end AviFile

end MPlayer.AviDemux
