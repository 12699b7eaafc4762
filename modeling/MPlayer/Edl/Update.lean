import Mathlib.Data.Rat.Defs
import Mathlib.Algebra.Order.Ring.Rat
import Mathlib.Tactic.Linarith

/-!
# Edit decision lists

`edl_parse_file` reads records from a file, and `edl_update` acts on them as the video goes on: it
asks for a seek over a skip record and turns the sound off and on at mute records.  With
`edl_needs_reset` set, a call finds its place by a scan from the first record; without, it looks at
the next record alone.

Numbers are rationals.  A file is given as what `sscanf` makes of each of its lines, and a pointer
to a record as the list of records from it on.  Allocation does not fail, and messages and the
mixer, which reads `edl_muted`, are left out.
-/

namespace MPlayer.Edl

/-! ## Parsing -/

/-- `EDL_SKIP`. -/
def edlSkip : Int := 0

/-- `EDL_MUTE`. -/
def edlMute : Int := 1

structure EdlRecord where
  startSec : ℚ
  stopSec : ℚ
  lengthSec : ℚ
  /-- A `short`. -/
  action : Int
deriving DecidableEq

/-- An `int` stored in a `short`. -/
def shortOf (action : Int) : Int := Int.bmod action (2 ^ 16)

/-- What `sscanf` with `"%f %f %d"` gives for a line, if it converts all three. -/
abbrev EdlLine := Option (ℚ × ℚ × Int)

/-- The records a line adds once it is accepted. -/
def lineRecords (start stop : ℚ) (action : Int) : List EdlRecord :=
  if action = edlMute then
    [⟨start, start, 0, shortOf action⟩, ⟨stop, stop, 0, shortOf action⟩]
  else [⟨start, stop, stop - start, shortOf action⟩]

/-- One turn of the loop of `edl_parse_file`.  The last record is `next_edl_record` there. -/
def parseLine (recs : List EdlRecord) : EdlLine → List EdlRecord
  | none => recs
  | some (start, stop, action) =>
    if recs.getLast?.any fun r => decide (start ≤ r.stopSec) then recs
    else if stop ≤ start then recs
    else recs ++ lineRecords start stop action

/-- `edl_parse_file`. -/
def edlParseFile (lines : List EdlLine) : List EdlRecord := lines.foldl parseLine []

/-! ## Updating -/

/-- The statics of `edl_update` and the fields of the player it sets. -/
structure EdlState where
  edlRecords : List EdlRecord
  nextEdlRecord : List EdlRecord
  edlMuted : Bool
  edlNeedsReset : Bool
  edlBackward : Bool
  edlBackwardDelay : ℚ
  edlDecision : Bool
  absSeekPos : Int
  relSeekSecs : ℚ

/-- Asks for a relative seek. -/
def EdlState.seek (s : EdlState) (secs : ℚ) : EdlState :=
  { s with edlDecision := true, absSeekPos := 0, relSeekSecs := secs }

/-- The loop of a reset: the record it stops at with those behind it, `edl_muted`, and whether it
stops inside that record. -/
def resetScan (pts : ℚ) : List EdlRecord → Bool → List EdlRecord × Bool × Bool
  | [], muted => ([], muted, false)
  | r :: rest, muted =>
    if pts < r.startSec then (r :: rest, muted, false)
    else if pts ≤ r.stopSec then (r :: rest, muted, true)
    else resetScan pts rest (if r.action = edlMute then !muted else muted)

/-- The last part of `edl_update`: acts on the next record if its time has come. -/
def actOnNext (s : EdlState) (pts : ℚ) : EdlState :=
  match s.nextEdlRecord with
  | [] => s
  | r :: rest =>
    if r.startSec ≤ pts then
      let s :=
        if r.action = edlSkip then s.seek (r.stopSec - pts)
        else if r.action = edlMute then { s with edlMuted := !s.edlMuted }
        else s
      { s with nextEdlRecord := rest }
    else s

/-- `edl_update`, where the video's time is missing without `sh_video`. -/
def edlUpdate (s : EdlState) (video : Option ℚ) : EdlState :=
  if s.edlRecords = [] then s
  else match video with
  | none => { s with nextEdlRecord := [], edlRecords := [] }
  | some pts =>
    if s.edlNeedsReset then
      let (next, muted, inside) := resetScan pts s.edlRecords false
      let s := { s with edlNeedsReset := false, edlMuted := muted, nextEdlRecord := next }
      match inside && s.edlBackward, next with
      | true, r :: _ => s.seek (-(pts - r.startSec + s.edlBackwardDelay))
      | _, _ => actOnNext s pts
    else actOnNext s pts

/-! ## What the records should be -/

/-- In time order, and no two meet. -/
def InOrder (recs : List EdlRecord) : Prop :=
  recs.Pairwise (fun a b => a.stopSec < b.startSec) ∧ ∀ r ∈ recs, r.startSec ≤ r.stopSec

/-- The records are those of some of the lines, taken in order. -/
def FromLines (lines : List EdlLine) (recs : List EdlRecord) : Prop :=
  ∃ accepted : List (ℚ × ℚ × Int),
    (accepted.map some).Sublist lines ∧ recs = accepted.flatMap fun l => lineRecords l.1 l.2.1 l.2.2

/-- The records past a time that may be missing, as it is before the first call. -/
def pendingAfter (recs : List EdlRecord) : Option ℚ → List EdlRecord
  | none => recs
  | some t => recs.filter fun r => decide (t < r.startSec)

/-- The mute points at or before a time. -/
def mutePoints (recs : List EdlRecord) (t : ℚ) : Nat :=
  recs.countP fun r => decide (r.action = edlMute) && decide (r.startSec ≤ t)

/-! ## Parsing keeps the order -/

theorem InOrder.tail {r : EdlRecord} {rest : List EdlRecord} (h : InOrder (r :: rest)) :
    InOrder rest :=
  ⟨h.1.of_cons, fun q hq => h.2 q (List.mem_cons_of_mem r hq)⟩

variable {r q : EdlRecord} {rest recs : List EdlRecord} {t : ℚ} {s : EdlState} {prev : Option ℚ}

theorem InOrder.lt_of_mem (h : InOrder (r :: rest)) (hq : q ∈ rest) : r.stopSec < q.startSec :=
  List.rel_of_pairwise_cons h.1 hq

/-- No record ends after the last. -/
theorem InOrder.stop_le_last (h : InOrder recs) {last : EdlRecord}
    (hl : recs.getLast? = some last) (hq : q ∈ recs) : q.stopSec ≤ last.stopSec := by
  obtain ⟨init, rfl⟩ := List.getLast?_eq_some_iff.1 hl
  rcases List.mem_append.1 hq with hi | hi
  · have hlt := (List.pairwise_append.1 h.1).2.2 q hi last (by simp)
    have hle := h.2 last (by simp)
    linarith
  · simp only [List.mem_singleton] at hi
    rw [hi]

theorem lineRecords_inOrder {start stop : ℚ} {action : Int} (h : start < stop) :
    InOrder (lineRecords start stop action) := by
  unfold lineRecords
  split
  · refine ⟨by simpa using h, ?_⟩
    simp
  · exact ⟨List.pairwise_singleton _ _, by simpa using h.le⟩

theorem lineRecords_start {start stop : ℚ} {action : Int} (h : start < stop)
    (hr : r ∈ lineRecords start stop action) : start ≤ r.startSec := by
  unfold lineRecords at hr
  split at hr
  · simp only [List.mem_cons, List.not_mem_nil, or_false] at hr
    rcases hr with rfl | rfl
    · exact le_rfl
    · exact h.le
  · rw [List.mem_singleton.1 hr]

/-- What one line does: nothing, or it adds its records behind all others. -/
theorem parseLine_cases (recs : List EdlRecord) (line : EdlLine) :
    parseLine recs line = recs ∨
      ∃ start stop action, line = some (start, stop, action) ∧ start < stop ∧
        (∀ last, recs.getLast? = some last → last.stopSec < start) ∧
        parseLine recs line = recs ++ lineRecords start stop action := by
  match line with
  | none => exact .inl rfl
  | some (start, stop, action) =>
    simp only [parseLine]
    split
    · exact .inl rfl
    · rename_i hlast
      split
      · exact .inl rfl
      · rename_i hstop
        refine .inr ⟨start, stop, action, rfl, not_le.1 hstop, ?_, rfl⟩
        intro last hl
        simpa [hl] using hlast

theorem parseLine_inOrder (h : InOrder recs) (line : EdlLine) : InOrder (parseLine recs line) := by
  rcases parseLine_cases recs line with heq | ⟨start, stop, action, -, hlt, hlast, heq⟩
  · rwa [heq]
  · rw [heq]
    have hnew := @lineRecords_inOrder _ _ action hlt
    refine ⟨List.pairwise_append.2 ⟨h.1, hnew.1, ?_⟩, ?_⟩
    · intro a ha b hb
      cases hl : recs.getLast? with
      | none => simp [List.getLast?_eq_none_iff.1 hl] at ha
      | some last =>
        have h1 := h.stop_le_last hl ha
        have h2 := hlast last hl
        have h3 := lineRecords_start hlt hb
        linarith
    · intro r hr
      rcases List.mem_append.1 hr with hr | hr
      · exact h.2 r hr
      · exact hnew.2 r hr

theorem foldl_parseLine_inOrder (h : InOrder recs) (lines : List EdlLine) :
    InOrder (lines.foldl parseLine recs) := by
  induction lines generalizing recs with
  | nil => exact h
  | cons line lines ih => exact ih (parseLine_inOrder h line)

theorem edlParseFile_inOrder (lines : List EdlLine) : InOrder (edlParseFile lines) :=
  foldl_parseLine_inOrder ⟨List.Pairwise.nil, by simp⟩ lines

theorem foldl_parseLine_fromLines (lines : List EdlLine) (recs : List EdlRecord) :
    ∃ more, FromLines lines more ∧ lines.foldl parseLine recs = recs ++ more := by
  induction lines generalizing recs with
  | nil => exact ⟨[], ⟨[], List.Sublist.refl _, rfl⟩, (List.append_nil recs).symm⟩
  | cons line lines ih =>
    rw [List.foldl_cons]
    rcases parseLine_cases recs line with heq | ⟨start, stop, action, rfl, -, -, heq⟩
    · obtain ⟨more, ⟨accepted, hsub, hmore⟩, hfold⟩ := ih recs
      exact ⟨more, ⟨accepted, hsub.cons line, hmore⟩, by rw [heq, hfold]⟩
    · obtain ⟨more, ⟨accepted, hsub, hmore⟩, hfold⟩ := ih (recs ++ lineRecords start stop action)
      refine ⟨lineRecords start stop action ++ more,
        ⟨(start, stop, action) :: accepted, ?_, ?_⟩, ?_⟩
      · exact hsub.cons_cons _
      · rw [hmore]
        rfl
      · rw [heq, hfold, List.append_assoc]

theorem edlParseFile_fromLines (lines : List EdlLine) :
    FromLines lines (edlParseFile lines) := by
  obtain ⟨more, hfrom, hfold⟩ := foldl_parseLine_fromLines lines []
  rw [edlParseFile, hfold]
  exact hfrom

/-! ## Splitting at a time -/

theorem InOrder.filter (h : InOrder recs) (p : EdlRecord → Bool) : InOrder (recs.filter p) :=
  ⟨h.1.filter p, fun r hr => h.2 r ((List.mem_filter.1 hr).1)⟩

/-- If the first record is past a time, all are. -/
theorem InOrder.lt_start (h : InOrder (r :: rest)) (ht : t < r.startSec) (hq : q ∈ r :: rest) :
    t < q.startSec := by
  rcases List.mem_cons.1 hq with rfl | hq
  · exact ht
  · have h1 := h.2 r (by simp)
    have h2 := h.lt_of_mem hq
    linarith

/-- The records that have started come before those that have not. -/
theorem InOrder.split (h : InOrder recs) (t : ℚ) :
    recs = recs.filter (fun r => decide (r.startSec ≤ t)) ++ pendingAfter recs (some t) := by
  induction recs with
  | nil => rfl
  | cons r rest ih =>
    by_cases hr : r.startSec ≤ t
    · have hnot : ¬t < r.startSec := not_lt.2 hr
      simp only [pendingAfter, List.filter_cons, hr, hnot, decide_true, decide_false,
        List.cons_append, if_true] at ih ⊢
      exact congrArg (r :: ·) (ih h.tail)
    · have hall : ∀ q ∈ r :: rest, t < q.startSec := fun q hq => h.lt_start (not_le.1 hr) hq
      rw [List.filter_eq_nil_iff.2 (by simpa using hall), List.nil_append, pendingAfter,
        List.filter_eq_self.2 (by simpa using hall)]

/-- The parity of the mute points at or before a time. -/
def mutedAt (recs : List EdlRecord) (t : ℚ) : Bool := decide (mutePoints recs t % 2 = 1)

theorem decide_odd_succ (n : Nat) : decide ((n + 1) % 2 = 1) = !decide (n % 2 = 1) := by
  rcases Nat.mod_two_eq_zero_or_one n with h | h
  · have : (n + 1) % 2 = 1 := by omega
    simp [h, this]
  · have : (n + 1) % 2 = 0 := by omega
    simp [h, this]

/-- A record that has not started leaves the parity alone. -/
theorem mutedAt_cons_of_lt (h : t < r.startSec) : mutedAt (r :: recs) t = mutedAt recs t := by
  unfold mutedAt mutePoints
  rw [List.countP_cons]
  simp [not_le.2 h]

theorem mutedAt_eq_false (h : ∀ q ∈ recs, t < q.startSec) : mutedAt recs t = false := by
  have : mutePoints recs t = 0 := by
    refine List.countP_eq_zero.2 fun q hq => ?_
    simp [not_le.2 (h q hq)]
  simp [mutedAt, this]

/-- A record that has started changes the parity if it is a mute record. -/
theorem mutedAt_cons_of_le (h : r.startSec ≤ t) :
    mutedAt (r :: recs) t = if r.action = edlMute then !mutedAt recs t else mutedAt recs t := by
  unfold mutedAt mutePoints
  rw [List.countP_cons]
  by_cases ha : r.action = edlMute
  · simp only [ha, h, decide_true, Bool.and_self, if_true]
    exact decide_odd_succ _
  · simp [ha]

/-! ## A call that resets -/

/-- What a record does to the sound when it is passed. -/
def EdlRecord.muting (r : EdlRecord) (muted : Bool) : Bool :=
  if r.action = edlMute then !muted else muted

theorem actOnNext_cons_of_le {pts : ℚ} (hs : s.nextEdlRecord = r :: rest) (h : r.startSec ≤ pts) :
    (actOnNext s pts).nextEdlRecord = rest ∧ (actOnNext s pts).edlMuted = r.muting s.edlMuted := by
  have hne : edlMute ≠ edlSkip := by decide
  unfold actOnNext EdlRecord.muting
  rw [hs]
  simp only [h, if_true, true_and]
  by_cases ha : r.action = edlSkip
  · simp [ha, hne.symm, EdlState.seek]
  · by_cases hm : r.action = edlMute
    · simp [hm, hne]
    · simp [ha, hm]

theorem actOnNext_of_lt {s : EdlState} {pts : ℚ}
    (h : ∀ r rest, s.nextEdlRecord = r :: rest → pts < r.startSec) : actOnNext s pts = s := by
  unfold actOnNext
  split
  · rfl
  · rename_i r rest hs
    rw [if_neg (not_le.2 (h r rest hs))]

/-- After the scan of a reset and the last part of the call, every record that has started is
passed.  The record the scan stops inside is the last of them. -/
theorem resetScan_passes (h : InOrder recs) (pts : ℚ) (muted : Bool) (s : EdlState)
    (hnext : s.nextEdlRecord = (resetScan pts recs muted).1)
    (hmuted : s.edlMuted = (resetScan pts recs muted).2.1) :
    (actOnNext s pts).nextEdlRecord = pendingAfter recs (some pts) ∧
      (actOnNext s pts).edlMuted = Bool.xor muted (mutedAt recs pts) := by
  induction recs generalizing muted with
  | nil =>
    have hstay := @actOnNext_of_lt s pts (by simp [hnext, resetScan])
    rw [hstay, hnext, hmuted]
    simp [resetScan, pendingAfter, mutedAt, mutePoints]
  | cons r rest ih =>
    by_cases hlt : pts < r.startSec
    · simp only [resetScan, hlt, if_true] at hnext hmuted
      have hall : ∀ q ∈ r :: rest, pts < q.startSec := fun q hq => h.lt_start hlt hq
      have hstay := @actOnNext_of_lt s pts (by simp [hnext, hlt])
      rw [hstay, mutedAt_eq_false hall, hnext, hmuted, pendingAfter,
        List.filter_eq_self.2 (by simpa using hall)]
      simp
    · have hle : r.startSec ≤ pts := not_lt.1 hlt
      have hpast : pendingAfter (r :: rest) (some pts) = pendingAfter rest (some pts) := by
        simp [pendingAfter, hlt]
      rw [hpast, mutedAt_cons_of_le hle]
      by_cases hin : pts ≤ r.stopSec
      · -- the scan stops inside this record, and all behind it are still to come
        simp only [resetScan, hlt, hin, if_true, if_false] at hnext hmuted
        obtain ⟨hn, hm⟩ := actOnNext_cons_of_le hnext hle
        have hall : ∀ q ∈ rest, pts < q.startSec := fun q hq => hin.trans_lt (h.lt_of_mem hq)
        rw [hn, hm, hmuted, mutedAt_eq_false hall, pendingAfter,
          List.filter_eq_self.2 (by simpa using hall)]
        unfold EdlRecord.muting
        split <;> simp
      · simp only [resetScan, hlt, hin, if_false] at hnext hmuted
        obtain ⟨hn, hm⟩ := ih h.tail _ hnext hmuted
        refine ⟨hn, hm.trans ?_⟩
        split <;> simp

/-- The scan stops at a record only before it or inside it. -/
theorem resetScan_head {pts : ℚ} {recs : List EdlRecord} {muted : Bool} {r : EdlRecord}
    {rest : List EdlRecord} (h : (resetScan pts recs muted).1 = r :: rest) :
    pts < r.startSec ∨ pts ≤ r.stopSec := by
  induction recs generalizing muted with
  | nil => simp [resetScan] at h
  | cons q recs ih =>
    simp only [resetScan] at h
    split at h
    · rename_i hlt
      simp only [List.cons.injEq] at h
      exact .inl (h.1 ▸ hlt)
    · split at h
      · rename_i hin
        simp only [List.cons.injEq] at h
        exact .inr (h.1 ▸ hin)
      · exact ih h

/-- A record that is passed asks for a seek back if it is a skip record that is over. -/
theorem actOnNext_seek_iff {s : EdlState} {pts : ℚ} {r : EdlRecord} {rest : List EdlRecord}
    (hnext : s.nextEdlRecord = r :: rest) (hle : r.startSec ≤ pts)
    (hs : s.edlDecision = true → 0 ≤ s.relSeekSecs) :
    ((actOnNext s pts).edlDecision = true → 0 ≤ (actOnNext s pts).relSeekSecs) ↔
      (r.action = edlSkip → pts ≤ r.stopSec) := by
  have hne : edlMute ≠ edlSkip := by decide
  unfold actOnNext
  rw [hnext]
  by_cases hskip : r.action = edlSkip
  · simp [hle, hskip, EdlState.seek]
  · by_cases hmute : r.action = edlMute
    · simpa [hle, hmute, hne] using hs
    · simpa [hle, hskip, hmute] using hs

/-! ## Runs -/

/-- A state with these records that seeks forward.  Without records `edl_update` returns at once,
and there is nothing to be muted by. -/
structure StateOf (recs : List EdlRecord) (s : EdlState) : Prop where
  records : s.edlRecords = recs
  forward : s.edlBackward = false
  blank : recs = [] → s.nextEdlRecord = [] ∧ s.edlMuted = false

/-- What every call should leave: the state a call with `edl_needs_reset` set would, from whatever
state, with `edl_muted` the parity of the mute points, and no seek back asked for. -/
structure ActsAsReset (recs : List EdlRecord) (s : EdlState) (t : ℚ) : Prop where
  reset : ∀ before : EdlState, StateOf recs before →
    let after := edlUpdate { before with edlNeedsReset := true } (some t)
    s.edlMuted = after.edlMuted ∧ s.nextEdlRecord = after.nextEdlRecord
  parity : s.edlMuted = mutedAt recs t
  seek : s.edlDecision = true → 0 ≤ s.relSeekSecs

/-- Every call of a run leaves what it should. -/
def RunActsAsReset (recs : List EdlRecord) : EdlState → List ℚ → Prop
  | _, [] => True
  | s, t :: ts =>
    ActsAsReset recs (edlUpdate s (some t)) t ∧ RunActsAsReset recs (edlUpdate s (some t)) ts

/-- A step of the time passes at most one record, and does not pass a skip record whole. -/
def StepPassesOne (recs : List EdlRecord) (prev : Option ℚ) (t : ℚ) : Prop :=
  ((pendingAfter recs prev).filter fun r => decide (r.startSec ≤ t)).length ≤ 1 ∧
    ∀ r ∈ pendingAfter recs prev, r.startSec ≤ t → r.action = edlSkip → t ≤ r.stopSec

/-- Every step of the times passes at most one record. -/
def TimesPassOne (recs : List EdlRecord) : Option ℚ → List ℚ → Prop
  | _, [] => True
  | prev, t :: ts => StepPassesOne recs prev t ∧ TimesPassOne recs (some t) ts

/-- The state after `edl_loadfile`, which asks for a reset if there were records before. -/
structure Loaded (recs : List EdlRecord) (s : EdlState) : Prop extends StateOf recs s where
  start : s.edlNeedsReset = false → s.nextEdlRecord = recs ∧ s.edlMuted = false
  noSeek : s.edlDecision = false

/-- As `TimesPassOne`, from a state that has just been loaded.  A first call that resets may pass
any number of records. -/
def LoadedTimesPassOne (recs : List EdlRecord) (needsReset : Bool) : List ℚ → Prop
  | [] => True
  | t :: ts =>
    (needsReset = false → StepPassesOne recs none t) ∧ TimesPassOne recs (some t) ts

/-- The state before a call that does not reset, where all calls before acted as they should. -/
structure Settled (recs : List EdlRecord) (prev : Option ℚ) (s : EdlState) : Prop where
  records : s.edlRecords = recs
  noReset : s.edlNeedsReset = false
  forward : s.edlBackward = false
  next : s.nextEdlRecord = pendingAfter recs prev
  muted : s.edlMuted = (prev.map (mutedAt recs)).getD false
  seek : s.edlDecision = true → 0 ≤ s.relSeekSecs

@[simp] theorem actOnNext_frame (s : EdlState) (pts : ℚ) :
    (actOnNext s pts).edlRecords = s.edlRecords ∧
      (actOnNext s pts).edlNeedsReset = s.edlNeedsReset ∧
      (actOnNext s pts).edlBackward = s.edlBackward := by
  unfold actOnNext EdlState.seek
  split
  · simp
  · split
    · dsimp only
      split
      · simp
      · split <;> simp
    · simp

/-- A call that resets, as the scan and the last part. -/
theorem edlUpdate_reset (hb : s.edlBackward = false) (hr : s.edlNeedsReset = true)
    (hne : s.edlRecords ≠ []) :
    edlUpdate s (some t) = actOnNext
      { s with
        edlNeedsReset := false
        edlMuted := (resetScan t s.edlRecords false).2.1
        nextEdlRecord := (resetScan t s.edlRecords false).1 } t := by
  simp only [edlUpdate, hne, hr, if_true, if_false, hb, Bool.and_false]

/-- A call that resets passes every record that has started. -/
theorem edlUpdate_reset_passes (hs : InOrder s.edlRecords) (hb : s.edlBackward = false)
    (hr : s.edlNeedsReset = true) (hne : s.edlRecords ≠ []) :
    (edlUpdate s (some t)).nextEdlRecord = pendingAfter s.edlRecords (some t) ∧
      (edlUpdate s (some t)).edlMuted = mutedAt s.edlRecords t := by
  rw [edlUpdate_reset hb hr hne]
  simpa using resetScan_passes hs t false _ rfl rfl

/-- With records, acting as a reset is to have passed the records that have started. -/
theorem actsAsReset_iff (h : InOrder recs) (hne : recs ≠ []) :
    ActsAsReset recs s t ↔ s.nextEdlRecord = pendingAfter recs (some t) ∧
      s.edlMuted = mutedAt recs t ∧ (s.edlDecision = true → 0 ≤ s.relSeekSecs) := by
  have hafter : ∀ before : EdlState, StateOf recs before →
      (edlUpdate { before with edlNeedsReset := true } (some t)).nextEdlRecord =
          pendingAfter recs (some t) ∧
        (edlUpdate { before with edlNeedsReset := true } (some t)).edlMuted =
          mutedAt recs t := by
    intro before ⟨hrecords, hforward, _⟩
    subst hrecords
    exact edlUpdate_reset_passes (s := { before with edlNeedsReset := true }) h hforward rfl hne
  constructor
  · intro ⟨hreset, hparity, hseek⟩
    let before : EdlState := ⟨recs, [], false, true, false, 0, false, 0, 0⟩
    have hb : StateOf recs before := ⟨rfl, rfl, fun _ => ⟨rfl, rfl⟩⟩
    exact ⟨(hreset before hb).2.trans (hafter before hb).1, hparity, hseek⟩
  · intro ⟨hnext, hmuted, hseek⟩
    refine ⟨fun before hb => ?_, hmuted, hseek⟩
    exact ⟨hmuted.trans (hafter before hb).2.symm, hnext.trans (hafter before hb).1.symm⟩

/-- The records past a time are among those past a time before it. -/
theorem pendingAfter_pendingAfter {recs : List EdlRecord} {prev : Option ℚ} {t : ℚ}
    (h : ∀ p, prev = some p → p ≤ t) :
    pendingAfter (pendingAfter recs prev) (some t) = pendingAfter recs (some t) := by
  cases prev with
  | none => rfl
  | some p =>
    simp only [pendingAfter, List.filter_filter]
    refine List.filter_congr fun r _ => ?_
    have hpt := h p rfl
    have : t < r.startSec → p < r.startSec := fun hr => hpt.trans_lt hr
    by_cases hr : t < r.startSec
    · simp [hr, this hr]
    · simp [hr]

theorem InOrder.pendingAfter (h : InOrder recs) (prev : Option ℚ) :
    InOrder (pendingAfter recs prev) := by
  cases prev with
  | none => exact h
  | some p => exact h.filter _

/-- The mute points up to a time, those up to an earlier time taken out. -/
theorem mutedAt_pendingAfter {recs : List EdlRecord} {prev : Option ℚ} {t : ℚ}
    (h : ∀ p, prev = some p → p ≤ t) :
    Bool.xor ((prev.map (mutedAt recs)).getD false) (mutedAt (pendingAfter recs prev) t) =
      mutedAt recs t := by
  cases prev with
  | none => simp [Edl.pendingAfter]
  | some p =>
    have hpt := h p rfl
    induction recs with
    | nil => simp [mutedAt, mutePoints, Edl.pendingAfter]
    | cons r rest ih =>
      simp only [Option.map_some, Option.getD_some] at ih ⊢
      by_cases hp : r.startSec ≤ p
      · have hpend : Edl.pendingAfter (r :: rest) (some p) = Edl.pendingAfter rest (some p) := by
          simp [Edl.pendingAfter, hp]
        rw [hpend, mutedAt_cons_of_le hp, mutedAt_cons_of_le (hp.trans hpt), ← ih]
        split <;> simp
      · have hlt := not_le.1 hp
        have hpend : Edl.pendingAfter (r :: rest) (some p) =
            r :: Edl.pendingAfter rest (some p) := by
          simp [Edl.pendingAfter, hlt]
        rw [hpend, mutedAt_cons_of_lt hlt]
        by_cases ht : r.startSec ≤ t
        · rw [mutedAt_cons_of_le ht, mutedAt_cons_of_le ht, ← ih]
          split <;> simp
        · rw [mutedAt_cons_of_lt (not_le.1 ht), mutedAt_cons_of_lt (not_le.1 ht), ih]

/-- What a call that does not reset does to a list in order, and when that is all a reset would
do: if no more than one record has started since, and it is no skip record that is over. -/
theorem actOnNext_passes_iff (h : InOrder recs) (hprev : ∀ p, prev = some p → p ≤ t)
    (hs : Settled recs prev s) :
    ((actOnNext s t).nextEdlRecord = pendingAfter recs (some t) ∧
      (actOnNext s t).edlMuted = mutedAt recs t ∧
      ((actOnNext s t).edlDecision = true → 0 ≤ (actOnNext s t).relSeekSecs)) ↔
    StepPassesOne recs prev t := by
  have hord := h.pendingAfter prev
  have hpp := @pendingAfter_pendingAfter recs _ _ hprev
  have hmp := @mutedAt_pendingAfter recs _ _ hprev
  have hsn := hs.next
  have hsm := hs.muted
  rw [← hpp, ← hmp, ← hsm]
  unfold StepPassesOne
  generalize Edl.pendingAfter recs prev = l at *
  cases l with
  | nil =>
    rw [actOnNext_of_lt (by simp [hsn])]
    simpa [hsn, Edl.pendingAfter, mutedAt, mutePoints] using hs.seek
  | cons r rest =>
    by_cases hr : r.startSec ≤ t
    · obtain ⟨hn, hm⟩ := actOnNext_cons_of_le hsn hr
      have hskip := actOnNext_seek_iff hsn hr hs.seek
      have hpend : Edl.pendingAfter (r :: rest) (some t) = Edl.pendingAfter rest (some t) := by
        simp [Edl.pendingAfter, hr]
      have hsplit := hord.tail.split t
      rw [hn, hm, hskip, hpend, List.filter_cons, if_pos (by simpa using hr), List.length_cons,
        mutedAt_cons_of_le hr]
      constructor
      · rintro ⟨hrest, -, hstop⟩
        have hnone : rest.filter (fun q => decide (q.startSec ≤ t)) = [] := by
          rw [← hrest] at hsplit
          exact List.self_eq_append_left.1 hsplit
        refine ⟨by simp [hnone], fun q hq hle hact => ?_⟩
        rcases List.mem_cons.1 hq with rfl | hq
        · exact hstop hact
        · exact absurd hle (by simpa using List.filter_eq_nil_iff.1 hnone q hq)
      · intro ⟨hlen, hstop⟩
        have hnone : rest.filter (fun q => decide (q.startSec ≤ t)) = [] :=
          List.length_eq_zero_iff.1 (by omega)
        have hall : ∀ q ∈ rest, t < q.startSec := by
          simpa using List.filter_eq_nil_iff.1 hnone
        refine ⟨?_, ?_, hstop r (by simp) hr⟩
        · rw [Edl.pendingAfter, List.filter_eq_self.2 (by simpa using hall)]
        · rw [mutedAt_eq_false hall]
          unfold EdlRecord.muting
          split <;> simp
    · have hall : ∀ q ∈ r :: rest, t < q.startSec := fun q hq => hord.lt_start (not_le.1 hr) hq
      rw [actOnNext_of_lt (by simp [hsn, not_le.1 hr]), mutedAt_eq_false hall, hsn,
        Edl.pendingAfter, List.filter_eq_self.2 (by simpa using hall),
        List.filter_eq_nil_iff.2 (by simpa using hall)]
      refine ⟨fun _ => ⟨by simp, fun q hq hle => absurd hle (not_le.2 (hall q hq))⟩,
        fun _ => ⟨rfl, by simp, hs.seek⟩⟩

/-- One call from a settled state. -/
theorem edlUpdate_actsAsReset_iff (h : InOrder recs) (hne : recs ≠ [])
    (hprev : ∀ p, prev = some p → p ≤ t) (hs : Settled recs prev s) :
    ActsAsReset recs (edlUpdate s (some t)) t ↔ StepPassesOne recs prev t := by
  have hcall : edlUpdate s (some t) = actOnNext s t := by
    simp [edlUpdate, hs.records, hne, hs.noReset]
  rw [actsAsReset_iff h hne, hcall, actOnNext_passes_iff h hprev hs]

/-- A call that acts as a reset leaves a settled state. -/
theorem ActsAsReset.settled (h : InOrder recs) (hne : recs ≠ []) (hs : StateOf recs s)
    (hact : ActsAsReset recs (edlUpdate s (some t)) t) :
    Settled recs (some t) (edlUpdate s (some t)) := by
  obtain ⟨hnext, hmuted, hseek⟩ := (actsAsReset_iff h hne).1 hact
  have hforward := hs.forward
  have hrecords := hs.records
  by_cases hr : s.edlNeedsReset = true
  · have hcall := edlUpdate_reset (t := t) hforward hr (hrecords ▸ hne)
    refine ⟨?_, ?_, ?_, hnext, hmuted, hseek⟩ <;> simp [hcall, hrecords, hforward]
  · have hcall : edlUpdate s (some t) = actOnNext s t := by
      simp [edlUpdate, hrecords, hne, hr]
    refine ⟨?_, ?_, ?_, hnext, hmuted, hseek⟩ <;> simp [hcall, hrecords, hforward, hr]

theorem Settled.stateOf (hne : recs ≠ []) (hs : Settled recs prev s) : StateOf recs s :=
  ⟨hs.records, hs.forward, fun h => absurd h hne⟩

/-- A whole run from a settled state. -/
theorem runActsAsReset_iff {ts : List ℚ} (h : InOrder recs) (hne : recs ≠ [])
    (hprev : ∀ p, prev = some p → ∀ t ∈ ts, p ≤ t) (hts : ts.Pairwise (· ≤ ·))
    (hs : Settled recs prev s) : RunActsAsReset recs s ts ↔ TimesPassOne recs prev ts := by
  induction ts generalizing prev s with
  | nil => exact Iff.rfl
  | cons t ts ih =>
    have hstep := edlUpdate_actsAsReset_iff h hne (fun p hp => hprev p hp t (by simp)) hs
    rw [RunActsAsReset, TimesPassOne, hstep]
    refine and_congr_right fun hone => ?_
    refine ih (fun p hp q hq => ?_) hts.of_cons ((hstep.2 hone).settled h hne (hs.stateOf hne))
    cases hp
    exact List.rel_of_pairwise_cons hts hq

/-- Without records no call does anything. -/
theorem runActsAsReset_nil (hs : StateOf [] s) (hseek : s.edlDecision = true → 0 ≤ s.relSeekSecs)
    (ts : List ℚ) : RunActsAsReset [] s ts := by
  have hcall : ∀ (before : EdlState) (t : ℚ), before.edlRecords = [] →
      edlUpdate before (some t) = before := by
    intro before t hb
    simp [edlUpdate, hb]
  induction ts with
  | nil => trivial
  | cons t ts ih =>
    rw [RunActsAsReset, hcall s t hs.records]
    refine ⟨⟨fun before hb => ?_, ?_, hseek⟩, ih⟩
    · rw [hcall { before with edlNeedsReset := true } t hb.records]
      have h1 := hs.blank rfl
      have h2 := hb.blank rfl
      exact ⟨h1.2.trans h2.2.symm, h1.1.trans h2.1.symm⟩
    · simpa [mutedAt, mutePoints] using (hs.blank rfl).2

theorem timesPassOne_nil (prev : Option ℚ) (ts : List ℚ) : TimesPassOne [] prev ts := by
  induction ts generalizing prev with
  | nil => trivial
  | cons t ts ih => exact ⟨by cases prev <;> simp [StepPassesOne, pendingAfter], ih _⟩

/-- A first call that resets acts as a reset. -/
theorem edlUpdate_reset_actsAsReset (h : InOrder recs) (hne : recs ≠ []) (hs : Loaded recs s)
    (hr : s.edlNeedsReset = true) : ActsAsReset recs (edlUpdate s (some t)) t := by
  obtain ⟨⟨hrecords, hforward, -⟩, -, hnoSeek⟩ := hs
  subst hrecords
  obtain ⟨hnext, hmuted⟩ := edlUpdate_reset_passes (t := t) h hforward hr hne
  refine (actsAsReset_iff h hne).2 ⟨hnext, hmuted, ?_⟩
  rw [edlUpdate_reset hforward hr hne]
  generalize hscan : resetScan t s.edlRecords false = scan
  obtain ⟨next, muted, inside⟩ := scan
  cases next with
  | nil =>
    rw [actOnNext_of_lt (by simp)]
    simp [hnoSeek]
  | cons r rest =>
    by_cases hle : r.startSec ≤ t
    · rw [@actOnNext_seek_iff _ _ r rest rfl hle (by simp [hnoSeek])]
      intro _
      have := @resetScan_head t s.edlRecords false r rest (by rw [hscan])
      exact this.resolve_left (not_lt.2 hle)
    · rw [actOnNext_of_lt (by simpa using not_le.1 hle)]
      simp [hnoSeek]

/-- A run from the state after `edl_loadfile` acts as resets would, with the records in order and
taken from the lines, exactly if each of its steps passes at most one record and no skip record
whole.  A first call that resets may pass any number. -/
theorem edlUpdate_run_iff (lines : List EdlLine) (s : EdlState) (ts : List ℚ)
    (hs : Loaded (edlParseFile lines) s) (hts : ts.Pairwise (· ≤ ·)) :
    (InOrder (edlParseFile lines) ∧ FromLines lines (edlParseFile lines) ∧
        RunActsAsReset (edlParseFile lines) s ts) ↔
      LoadedTimesPassOne (edlParseFile lines) s.edlNeedsReset ts := by
  have h := edlParseFile_inOrder lines
  rw [and_iff_right h, and_iff_right (edlParseFile_fromLines lines)]
  generalize edlParseFile lines = recs at *
  by_cases hne : recs = []
  · subst hne
    have hrun := runActsAsReset_nil hs.toStateOf (by simp [hs.noSeek]) ts
    refine iff_of_true hrun ?_
    cases ts with
    | nil => trivial
    | cons t ts => exact ⟨fun _ => by simp [StepPassesOne, pendingAfter], timesPassOne_nil _ _⟩
  · cases ts with
    | nil => exact Iff.rfl
    | cons t ts =>
      have hlater : ∀ p, some t = some p → ∀ q ∈ ts, p ≤ q := by
        intro p hp q hq
        cases hp
        exact List.rel_of_pairwise_cons hts hq
      have hrest : ActsAsReset recs (edlUpdate s (some t)) t →
          (RunActsAsReset recs (edlUpdate s (some t)) ts ↔ TimesPassOne recs (some t) ts) :=
        fun hact => runActsAsReset_iff h hne hlater hts.of_cons
          (hact.settled h hne hs.toStateOf)
      by_cases hr : s.edlNeedsReset = true
      · have hact := edlUpdate_reset_actsAsReset (t := t) h hne hs hr
        simp only [RunActsAsReset, LoadedTimesPassOne, hact, hrest hact, hr, true_and,
          Bool.true_eq_false, false_implies]
      · have hsettled : Settled recs none s := by
          have hstart := hs.start (by simpa using hr)
          exact ⟨hs.records, by simpa using hr, hs.forward, hstart.1, hstart.2, by
            simp [hs.noSeek]⟩
        have hstep := edlUpdate_actsAsReset_iff (t := t) h hne (by simp) hsettled
        simp only [Bool.not_eq_true] at hr
        rw [RunActsAsReset, LoadedTimesPassOne, hstep]
        simp only [hr, true_implies]
        exact and_congr_right fun hone => hrest (hstep.2 hone)

/-- A file with one mute line, a step over all of it, and a run that is left muted. -/
theorem edlUpdate_run_not_reset :
    ¬∀ (lines : List EdlLine) (s : EdlState) (ts : List ℚ), Loaded (edlParseFile lines) s →
      ts.Pairwise (· ≤ ·) → InOrder (edlParseFile lines) ∧ FromLines lines (edlParseFile lines) ∧
        RunActsAsReset (edlParseFile lines) s ts := by
  intro hall
  let line : EdlLine := some (1, 2, edlMute)
  have hparse : edlParseFile [line] = [⟨1, 1, 0, 1⟩, ⟨2, 2, 0, 1⟩] := by decide
  let s : EdlState :=
    ⟨edlParseFile [line], edlParseFile [line], false, false, false, 2, false, 0, 0⟩
  have hs : Loaded (edlParseFile [line]) s :=
    ⟨⟨rfl, rfl, fun h => absurd h (by rw [hparse]; simp)⟩, fun _ => ⟨rfl, rfl⟩, rfl⟩
  obtain ⟨-, -, hrun⟩ := hall [line] s [5] hs (List.pairwise_singleton _ _)
  have hmuted : (edlUpdate s (some 5)).edlMuted = true := by
    simp only [s, hparse]
    decide
  have hparity : mutedAt (edlParseFile [line]) 5 = false := by
    rw [hparse]
    decide
  have := hrun.1.parity
  rw [hmuted, hparity] at this
  cases this

/-- A mute line whose points are passed in two steps. -/
theorem edlUpdate_run_two_steps :
    ∃ s : EdlState, Loaded (edlParseFile [some (1, 2, edlMute)]) s ∧
      RunActsAsReset (edlParseFile [some (1, 2, edlMute)]) s [1, 3] := by
  have hparse : edlParseFile [some (1, 2, edlMute)] = [⟨1, 1, 0, 1⟩, ⟨2, 2, 0, 1⟩] := by decide
  let s : EdlState := ⟨edlParseFile [some (1, 2, edlMute)], edlParseFile [some (1, 2, edlMute)],
    false, false, false, 2, false, 0, 0⟩
  have hs : Loaded (edlParseFile [some (1, 2, edlMute)]) s :=
    ⟨⟨rfl, rfl, fun h => absurd h (by rw [hparse]; simp)⟩, fun _ => ⟨rfl, rfl⟩, rfl⟩
  have hone : LoadedTimesPassOne (edlParseFile [some (1, 2, edlMute)]) false [1, 3] := by
    rw [hparse]
    exact ⟨fun _ => ⟨by decide, by decide⟩, ⟨by decide, by decide⟩, trivial⟩
  have h := edlUpdate_run_iff [some (1, 2, edlMute)] s [1, 3] hs (by decide)
  exact ⟨s, hs, (h.2 hone).2.2⟩

end MPlayer.Edl
