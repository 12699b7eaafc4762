import MPlayer.Mkv.ParsingProgress

/-!
# How long the header is read

The entries of a seek head lead to other elements, also to seek heads.  No seek head is read twice,
so there is an end to that (`seekhead_spends`), and all loops together take at most as many rounds
as the file has bytes for each element that is read (`header_ends`).
-/

namespace MPlayer.Parse

open Lib ParseState

variable {env : ParseEnv} {depth : Nat} {α β σ : Type}

/-! ## What entries lead to -/

/-- Code that is left only where something is cut off. -/
structure Hangs (env : ParseEnv) (depth : Nat) (e : ParseStop) (s : ParseState) : Prop where
  sane : s.Sane env depth
  endless : e = .endless
  cut : s.cut = true

variable {s : ParseState} {m : Parse α} {f seekhead : Parse Unit} {v : Vars}

theorem Hangs.ends {e : ParseStop} (h : Hangs env depth e s) : Ends env depth e s :=
  ⟨h.sane, fun _ => h.cut⟩

/-- The rounds of the code are paid for by the elements that it reads, and it isn't left. -/
def Returns (env : ParseEnv) (depth : Nat) (m : Parse α) : Prop :=
  Steps (Sane env depth) (Sane env depth) (Spent env) (Hangs env depth) m

theorem Returns.bind {f : α → Parse β} (hm : Returns env depth m)
    (hf : ∀ a, Returns env depth (f a)) : Returns env depth (m >>= f) :=
  Steps.bind hm hf (fun hend h => ⟨hend, h⟩) Spent.trans

theorem Returns.pure (a : α) : Returns env depth (pure a) := Steps.pure Spent.refl a

theorem Returns.ite {c : Prop} [Decidable c] {m' : Parse α} (hm : Returns env depth m)
    (hm' : Returns env depth m') : Returns env depth (if c then m else m') := by
  split
  · exact hm
  · exact hm'

theorem Returns.spends (hm : Returns env depth m) : Spends env depth m :=
  hm.errors Hangs.ends

/-- A function that is left returns like one that isn't. -/
theorem failed_steps {R : ParseState → ParseState → Prop}
    (hf : Steps (Sane env depth) (Sane env depth) R (Ends env depth) f) :
    Steps (Sane env depth) (Sane env depth) R (Hangs env depth) (failed f) := by
  constructor
  · intro s a s' hs hrun
    rw [failed] at hrun
    split at hrun
    · next hstep =>
      cases hrun
      exact hf.ok hs hstep
    · next hstep =>
      cases hrun
      obtain ⟨hends, hspent⟩ := hf.error hs hstep
      exact ⟨hends.sane, hspent⟩
    · cases hrun
  · intro s e s' hs hrun
    rw [failed] at hrun
    split at hrun
    · cases hrun
    · cases hrun
    · next hstep =>
      cases hrun
      obtain ⟨hends, hspent⟩ := hf.error hs hstep
      exact ⟨⟨hends.sane, rfl, hends.endless rfl⟩, hspent⟩

theorem failed_returns (hf : Spends env depth f) : Returns env depth (failed f) :=
  failed_steps hf

theorem failed_pays (hf : Pays env depth 0 f) : Pays env depth 0 (failed f) :=
  (failed_steps hf).errors Hangs.ends

theorem readId_returns : Returns env depth (readId env) := by
  refine Steps.total (a := fun s => (ebmlReadId (reader env s.pos)).1)
    (f := fun s => { s with
      pos := (ebmlReadId (reader env s.pos)).2.pos
      cut := s.cut || (ebmlReadId (reader env s.pos)).2.eof }) (fun s => rfl) ?_ ?_
  · intro s hs
    obtain ⟨n, -, hn⟩ := ebmlReadId_skip (reader env s.pos)
    rw [hn]
    exact hs.moved
  · intro s _
    exact .moved s fun hcut => (Bool.or_eq_false_iff.mp hcut).1

theorem streamSeek_returns (pos : Nat) : Returns env depth (streamSeek env pos) := by
  refine Steps.total
    (a := fun s => decide (pos < env.file.length) ||
      (decide (pos = env.file.length) && env.seekEnd s))
    (f := fun s => { s with pos := min pos env.file.length }) (fun s => rfl) ?_ ?_
  · intro s hs
    exact sane_of_pos hs (Nat.min_le_right _ _)
  · intro s _
    exact .moved s fun hcut => hcut

theorem follow_returns (henough : env.file.length < env.rounds)
    (hseekhead : Spends env depth seekhead) (seekId : Nat) :
    Returns env depth (follow env seekhead seekId) :=
  .bind readId_returns fun _ => .ite (.pure _) <|
    .ite (.bind (failed_returns (cues_spends henough)) fun _ => .pure _) <|
    .ite (.bind (failed_returns skipped_spends) fun _ => .pure _) <|
    .ite (.bind (failed_returns hseekhead) fun _ => .pure _) <|
    .ite (.bind (failed_returns (chapters_spends henough)) fun _ => .pure _) (.pure _)

/-- The way back only moves the position. -/
theorem back_steps (saved : Nat) (r : Bool × Option Nat) :
    Steps (Sane env depth) (Sane env depth)
      (fun s s' => s' = { s with pos := min saved env.file.length }) (Ends env depth)
      (back env saved r) := by
  have hseek : Steps (Sane env depth) (Sane env depth)
      (fun s s' => s' = { s with pos := min saved env.file.length }) (Ends env depth)
      (streamSeek env saved) :=
    Steps.total
      (a := fun s => decide (saved < env.file.length) ||
        (decide (saved = env.file.length) && env.seekEnd s))
      (f := fun s => { s with pos := min saved env.file.length }) (fun s => rfl)
      (fun hs => sane_of_pos hs (Nat.min_le_right _ _)) fun {_} _ => rfl
  have hrest : Steps (Sane env depth) (Sane env depth) (fun s s' => s' = s) (Ends env depth)
      (if r.1 then throw .left else pure r.2 : Parse (Option Nat)) := by
    split
    · exact Steps.throw (fun hs => ⟨hs, fun h => by cases h⟩) fun _ => rfl
    · exact Steps.pure (R := fun s s' => s' = s) (fun _ => rfl) _
  exact Steps.bind hseek (fun _ => hrest) (fun hend h => ⟨hend, h⟩) fun hmoved hsame =>
    hsame.trans hmoved

/-- A detour ends where it began, so what is paid there are elements. -/
theorem detour_pays {pos : Nat} {there : Parse (Bool × Option Nat)}
    (hthere : Returns env depth there) : Pays env depth 0 (detour env pos there) := by
  refine Steps.elsewhere fun {s} hs => ?_
  have haway : Returns env depth (away env pos there) :=
    .bind (streamSeek_returns pos) fun _ => .ite hthere (.pure _)
  refine ⟨_, _, fun s₁ s' => s₁ = s → s₁.Paid env 0 s', away env pos there >>= back env s.pos, s,
    rfl,
    hs, Steps.bind haway (back_steps s.pos) ?_ ?_, fun {_} => ⟨fun h => h, fun h => h rfl⟩⟩
  · intro e s₁ s' hhangs hspent
    refine ⟨hhangs.ends, fun _ => ⟨hspent.cut, hspent.heads, fun hcut => ?_⟩⟩
    rw [hhangs.cut] at hcut
    cases hcut
  · intro s₁ s₂ s' hspent heq hstart
    subst heq hstart
    have hinside := hs.inside
    refine ⟨hspent.cut, hspent.heads, fun hcut => ?_⟩
    have hrounds := hspent.rounds hcut
    refine ⟨?_, hspent.passes hcut, ?_, hspent.stuck hcut⟩
    · simp only
      omega
    · simp only [passes] at hrounds ⊢
      omega

/-! ## Seek heads -/

theorem seekEntry_pays (id : Nat) (e : SeekEntry) : Pays env depth 0 (seekEntry env id e) :=
  .ite (.bind readUint_pays fun _ => .pure _) <|
    .ite (.bind readUint_pays fun _ => .pure _) (.bind readSkip_pays fun _ => .pure _)

theorem seekheadRound_pays (henough : env.file.length < env.rounds)
    (hseekhead : Spends env depth seekhead) (v : Vars × Unit) :
    Pays env depth 1 (seekheadRound env seekhead v) := by
  refine .bind readId_pays fun _ => .ite (.bind (master_pays henough seekEntry_pays _) fun _ => ?_)
    (.bind readSkip_pays fun _ => .bind (.pure _) fun _ => ?_)
  all_goals
    exact .ite (.pure _) (.bind (detour_pays (follow_returns henough hseekhead _)) fun _ => .pure _)

/-- There are no more seek heads than positions. -/
theorem heads_le (hs : s.Sane env depth) : s.parsedSeekhead.length ≤ env.file.length + 1 := by
  have hsub : s.parsedSeekhead ⊆ List.range (env.file.length + 1) := by
    intro pos hpos
    exact List.mem_range.mpr (Nat.lt_succ_of_le (hs.within pos hpos))
  calc s.parsedSeekhead.length
      ≤ (List.range (env.file.length + 1)).length := (hs.heads.subperm hsub).length_le
    _ = env.file.length + 1 := List.length_range

/-- A seek head that is read leaves one position less for others. -/
theorem head_read (hs : s.Sane env (depth + 1)) (hnew : s.pos ∉ s.parsedSeekhead) :
    ({ s with parsedSeekhead := s.parsedSeekhead ++ [s.pos] } : ParseState).Sane env depth where
  inside := hs.inside
  heads := by
    refine List.nodup_append.mpr ⟨hs.heads, List.nodup_singleton _, fun a ha b hb => ?_⟩
    rw [List.mem_singleton.mp hb]
    exact fun heq => hnew (heq ▸ ha)
  within := by
    intro pos hpos
    rcases List.mem_append.mp hpos with hold | hlast
    · exact hs.within pos hold
    · rw [List.mem_singleton.mp hlast]
      exact hs.inside
  cues := hs.cues
  deep := by
    have hdeep := hs.deep
    simp only [List.length_append, List.length_singleton]
    omega

theorem sane_deeper (hs : s.Sane env depth) : s.Sane env (depth + 1) :=
  ⟨hs.inside, hs.heads, hs.within, hs.cues, by have hdeep := hs.deep; omega⟩

/-- Rounds that are paid for by bytes, and behind them rounds that are paid for by elements. -/
def Detached (env : ParseEnv) (s s' : ParseState) : Prop :=
  ∃ s₁, s.Paid env 0 s₁ ∧ s₁.pos ≤ env.file.length ∧ s₁.Spent env s'

theorem Detached.spent {s₁ s' : ParseState} (h : Detached env s₁ s') (hopened : Opened s s₁) :
    s.Spent env s' := by
  obtain ⟨s₂, hpaid, hinside, hspent⟩ := h
  exact (hopened.spent hpaid hinside).trans hspent

theorem Pays.detach {m : Parse α} {f : α → Parse β} (hm : Pays env depth 0 m)
    (hf : ∀ a, Spends env depth (f a)) :
    Steps (Sane env depth) (Sane env depth) (Detached env) (Ends env depth) (m >>= f) :=
  Steps.bind hm.inside hf (fun hend h => ⟨hend, _, h.1, h.2, .refl _⟩)
    fun h hspent => ⟨_, h.1, h.2, hspent⟩

theorem Pays.detached {f : α → Parse β} (hm : Pays env depth 0 m)
    (hf : ∀ a, Steps (Sane env depth) (Sane env depth) (Detached env) (Ends env depth) (f a)) :
    Steps (Sane env depth) (Sane env depth) (Detached env) (Ends env depth) (m >>= f) :=
  Steps.bind hm.inside hf (fun hend h => ⟨hend, _, h.1, h.2, .refl _⟩) fun h hrest => by
    obtain ⟨s₂, hpaid, hinside, hspent⟩ := hrest
    exact ⟨s₂, h.1.trans hpaid, hinside, hspent⟩

/-- What a seek head does that hasn't been read. -/
def seekheadBody (env : ParseEnv) (seekhead : Parse Unit) : Parse Unit := do
  let (length, _) ← readLength env
  let s ← get
  let l ← junk env 0
  let il ← junk env 1
  let res ← failed (loop (seekheadRound env seekhead) env.rounds (⟨length, l, il⟩, ()))
  if res then do
    let off := (s.pos + length) % 2 ^ 64
    let found ← streamSeek env (if off < 2 ^ 63 then off else 0)
    if found then return else throw .left
  else return

theorem seekheadBody_detached (henough : env.file.length < env.rounds)
    (hseekhead : Spends env depth seekhead) :
    Steps (Sane env depth) (Sane env depth) (Detached env) (Ends env depth)
      (seekheadBody env seekhead) :=
  readLength_pays.detached fun _ => get_pays.detached fun _ => (junk_pays 0).detached fun _ =>
    (junk_pays 1).detached fun _ =>
      (failed_pays (loop_pays henough (seekheadRound_pays henough hseekhead) _)).detach fun _ =>
        .ite
          (.bind (streamSeek_returns _).spends fun _ => .ite (.pure _)
            (Steps.throw (fun hs => ⟨hs, fun h => by cases h⟩) Spent.refl))
          (.pure _)

/-- Seek heads that lead to each other are each read once. -/
theorem seekhead_spends (henough : env.file.length < env.rounds) (depth : Nat) :
    Spends env depth (demuxMkvReadSeekhead env depth) := by
  induction depth with
  | zero =>
    refine Steps.elsewhere fun {s} hs => ?_
    have hdeep := hs.deep
    have hle := heads_le hs
    omega
  | succ depth ih =>
    refine Steps.elsewhere fun {s} hs => ?_
    by_cases hread : s.pos ∈ s.parsedSeekhead
    · have hskip : demuxMkvReadSeekhead env (depth + 1) s = skipped env s := by
        change (if s.pos ∈ s.parsedSeekhead then skipped env else _) s = _
        rw [if_pos hread]
      exact ⟨_, _, _, _, s, hskip, hs, skipped_spends, fun {_} => ⟨fun h => h, fun h => h⟩⟩
    · by_cases hmany : intMax ≤ s.parsedSeekhead.length
      · have hnone : demuxMkvReadSeekhead env (depth + 1) s = (pure () : Parse Unit) s := by
          change (if s.pos ∈ s.parsedSeekhead then skipped env
            else if intMax ≤ s.parsedSeekhead.length then pure () else _) s = _
          rw [if_neg hread, if_pos hmany]
        exact ⟨_, _, _, _, s, hnone, hs, Spends.pure (), fun {_} => ⟨fun h => h, fun h => h⟩⟩
      · have hbody : demuxMkvReadSeekhead env (depth + 1) s =
            seekheadBody env (demuxMkvReadSeekhead env depth)
              { s with parsedSeekhead := s.parsedSeekhead ++ [s.pos] } := by
          change (if s.pos ∈ s.parsedSeekhead then skipped env
            else if intMax ≤ s.parsedSeekhead.length then pure () else _) s = _
          rw [if_neg hread, if_neg hmany]
          rfl
        have hopened : Opened s { s with parsedSeekhead := s.parsedSeekhead ++ [s.pos] } := by
          refine ⟨?_, rfl, ?_, rfl, rfl⟩
          · simp only [passes, List.length_append, List.length_singleton]
            omega
          · simp only [List.length_append]
            omega
        exact ⟨_, _, _, _, _, hbody, head_read hs hread,
          (seekheadBody_detached henough ih).errors fun h => ⟨sane_deeper h.sane, h.endless⟩,
          fun {_} => ⟨sane_deeper, fun h => h.spent hopened⟩⟩

/-! ## The header -/

theorem readHeaderElement_spends (henough : env.file.length < env.rounds) (e : HeaderElement) :
    Spends env env.rounds (readHeaderElement env e) := by
  cases e with
  | info => exact info_spends henough
  | tracks => exact tracks_spends henough
  | cues => exact cues_spends henough
  | tags => exact skipped_spends
  | seekhead => exact seekhead_spends henough env.rounds
  | chapters => exact chapters_spends henough
  | attachments => exact attachments_spends henough

theorem readHeader_returns (henough : env.file.length < env.rounds)
    (es : List (Nat × HeaderElement)) : Returns env env.rounds (readHeader env es) := by
  induction es with
  | nil => exact .pure ()
  | cons e es ih =>
    exact .bind (streamSeek_returns e.1) fun _ =>
      .bind (failed_returns (readHeaderElement_spends henough e.2)) fun _ => ih

theorem start_sane (henough : env.file.length + 2 ≤ env.rounds) :
    ParseState.start.Sane env env.rounds :=
  ⟨Nat.zero_le _, List.nodup_nil, fun _ h => absurd h List.not_mem_nil, List.nodup_nil, henough⟩

/-- Only where the end of the stream cuts off an id or a length a loop has no end.  In any other
run each round takes a byte of the stream or leaves its loop, and there are at most as many
rounds as the file has bytes for each element that is read, where seek heads and cues at one
position count once. -/
theorem header_ends (henough : env.file.length + 2 ≤ env.rounds) (es : List (Nat × HeaderElement)) :
    (∀ e s, readHeader env es .start = .error e s → s.cut = true) ∧
      ∀ s, readHeader env es .start = .ok () s → s.cut = false →
        s.stuck = false ∧ s.iterations ≤ env.file.length * s.passes ∧
          s.parsedSeekhead.Nodup ∧ s.parsedCues.Nodup := by
  have hreturns := readHeader_returns (Nat.lt_of_succ_lt henough) es
  have hstart := start_sane henough
  constructor
  · intro e s hrun
    exact (hreturns.error hstart hrun).1.cut
  · intro s hrun hcut
    obtain ⟨hsane, hspent⟩ := hreturns.ok hstart hrun
    have hrounds := hspent.rounds hcut
    have hnone : ParseState.start.passes = 0 := rfl
    rw [hnone, Nat.mul_zero, Nat.add_zero] at hrounds
    refine ⟨hspent.stuck hcut, ?_, hsane.heads, hsane.cues⟩
    exact Nat.le_trans hrounds (Nat.le_of_eq (Nat.zero_add _))

/-- The beginning of a file: its header and the one of its segment. -/
def segmentBegin : List UInt8 :=
  [0x1A, 0x45, 0xDF, 0xA3, 0x8B, 0x42, 0x82, 0x88, 0x6D, 0x61, 0x74, 0x72, 0x6F, 0x73, 0x6B, 0x61,
    0x18, 0x53, 0x80, 0x67, 0xFF]

/-- A file that holds one segment, and a demuxer whose unset variables hold zeros. -/
def wholeFile (file : List UInt8) (rounds : Nat) : ParseEnv where
  file := file
  segmentStart := segmentBegin.length
  moviEnd := file.length
  moviEnd_le := Nat.le.refl
  indexMode := -1
  junk := fun _ _ => 0
  malloc := fun _ _ => true
  seekEnd := fun _ => true
  rounds := rounds

/-- What holds of the last state of a run that gives a value. -/
def ended (run : EStateM.Result ParseStop ParseState Unit) (p : ParseState → Bool) : Bool :=
  match run with
  | .ok _ s => p s
  | .error _ _ => false

theorem exists_of_ended {run : EStateM.Result ParseStop ParseState Unit} {p : ParseState → Bool}
    (h : ended run p = true) : ∃ s, run = .ok () s ∧ p s = true := by
  cases run with
  | ok a s => exact ⟨s, rfl, h⟩
  | error e s => cases h

/-- A whole file with chapters that have no edition, and a seek head of which nine entries lead to
them. -/
def chaptersFile : List UInt8 :=
  segmentBegin ++ [0x10, 0x43, 0xA7, 0x70, 0xFE] ++ (List.replicate 63 [0xEC, 0x80]).flatten ++
    [0x11, 0x4D, 0x9B, 0x74, 0xFE] ++ (List.replicate 9
      [0x4D, 0xBB, 0x8B, 0x53, 0xAB, 0x84, 0x10, 0x43, 0xA7, 0x70, 0x53, 0xAC, 0x81, 0]).flatten

theorem header_ends_chapters : ∃ s,
    readHeader (wholeFile chaptersFile 300) [(156, .seekhead)] .start = .ok () s ∧ s.cut = false ∧
      s.iterations = 594 ∧ s.iterations ≤ chaptersFile.length * s.passes := by
  have hrun : ended (readHeader (wholeFile chaptersFile 300) [(156, .seekhead)] .start)
      (fun s => s.cut == false && s.iterations == 594) = true := by decide +kernel
  obtain ⟨s, hrun, hs⟩ := exists_of_ended hrun
  obtain ⟨hcut, hiter⟩ := Bool.and_eq_true_iff.mp hs
  have henough : (wholeFile chaptersFile 300).file.length + 2 ≤
      (wholeFile chaptersFile 300).rounds := by decide +kernel
  have hbound := (header_ends henough _).2 s hrun (eq_of_beq hcut)
  exact ⟨s, hrun, eq_of_beq hcut, eq_of_beq hiter, hbound.2.1⟩

/-! ## Behind the end of the stream -/

theorem readId_end (hs : s.pos = env.file.length) :
    readId env s = .ok (ebmlIdInvalid, none) { s with cut := true } := by
  obtain ⟨pos, cues, heads, chapters, others, iterations, stuck, cut⟩ := s
  simp only at hs
  subst hs
  simp [readId, reader, ebmlReadId, Reader.skip, Reader.read]

theorem readSkip_end (hs : s.pos = env.file.length) :
    readSkip env s = .ok none { s with cut := true } := by
  obtain ⟨pos, cues, heads, chapters, others, iterations, stuck, cut⟩ := s
  simp only at hs
  subst hs
  simp [readSkip, reader, ebmlReadSkip, ebmlReadLength, Reader.skip, Reader.read]

theorem ne_zero_of_odd {n : Nat} (h : n % 2 = 1) : n ≠ 0 := by
  rintro rfl
  cases h

theorem next_l (v : Vars) (l il : Option Nat) : (v.next l il).l = l.getD v.l := by
  rw [Vars.next]

theorem next_il (v : Vars) (l il : Option Nat) : (v.next l il).il = il.getD v.il := by
  rw [Vars.next]

/-- An even number of bytes that is taken off leaves an odd one odd. -/
theorem next_odd (hlength : v.length % 2 = 1) (hl : (v.l + v.il) % 2 = 0) :
    (v.next none none).length % 2 = 1 := by
  rw [Vars.next]
  simp only [Option.getD_none]
  generalize v.l + v.il = l at hl ⊢
  generalize v.length = length at hlength ⊢
  omega

theorem next_even (hl : (v.l + v.il) % 2 = 0) :
    ((v.next none none).l + (v.next none none).il) % 2 = 0 := by
  rw [next_l, next_il]
  exact hl

/-- Behind the end of the stream the length of the last element is taken off in each round.  If it
is even and an odd number of bytes is left, there is no end to that. -/
theorem loop_endless {child : Nat → Unit → Parse (Unit × Option Nat)}
    (hchild : ∀ {s : ParseState}, s.pos = env.file.length →
      child ebmlIdInvalid () s = .ok ((), none) { s with cut := true }) (n : Nat) {v : Vars}
    (hlength : v.length % 2 = 1) (hl : (v.l + v.il) % 2 = 0) {s : ParseState}
    (hs : s.pos = env.file.length) : ∃ s',
      loop (elementRound env .function child) n (v, ()) s = .error .endless s' ∧
        (s.stuck = true ∨ 0 < n → s'.stuck = true) := by
  induction n generalizing v s with
  | zero =>
    refine ⟨s, ?_, fun h => h.resolve_right (Nat.lt_irrefl 0)⟩
    rw [loop, if_neg (ne_zero_of_odd hlength)]
    rfl
  | succ n ih =>
    have hround : round (elementRound env .function child) (v, ()) s =
        .ok (v.next none none, ())
          { s with iterations := s.iterations + 1, stuck := true, cut := true } := by
      have hbody : elementRound env .function child (v, ())
          { s with iterations := s.iterations + 1 } =
          .ok (v.next none none, ()) { s with iterations := s.iterations + 1, cut := true } :=
        (bind_ok (readId_end (s := { s with iterations := s.iterations + 1 }) hs)).trans
          (bind_ok (hchild (s := { s with iterations := s.iterations + 1, cut := true }) hs))
      rw [round, hbody]
      simp only [Nat.le_refl, decide_true, Bool.or_true]
    obtain ⟨s', hloop, hstuck⟩ := @ih (v.next none none) (next_odd hlength hl) (next_even hl)
      { s with iterations := s.iterations + 1, stuck := true, cut := true } hs
    refine ⟨s', ?_, fun _ => hstuck (.inl rfl)⟩
    rw [loop, if_neg (ne_zero_of_odd hlength)]
    exact (bind_ok hround).trans hloop

/-- The information about a segment, of which the end of the stream cuts off all but one element. -/
def infoFile : List UInt8 := segmentBegin ++ [0x15, 0x49, 0xA9, 0x66, 0x8B, 0xEC, 0x82, 0, 0]

/-- What is left of the information is read for ever. -/
theorem infoFile_endless (rounds : Nat) : ∃ s,
    demuxMkvReadInfo (wholeFile infoFile rounds) ⟨25, [], [], false, 0, 0, false, false⟩ =
      .error .endless s ∧ (1 < rounds → s.stuck = true) := by
  let env := wholeFile infoFile rounds
  let value : Nat → Parse (Option Nat) := fun id =>
    if id = 0x2AD7B1 then uint env else if id = 0x4489 then float env else readSkip env
  let child : Nat → Unit → Parse (Unit × Option Nat) := fun id _ => return ((), ← value id)
  have hchild : ∀ {s : ParseState}, s.pos = env.file.length →
      child ebmlIdInvalid () s = .ok ((), none) { s with cut := true } := by
    intro s hs
    exact bind_ok (readSkip_end hs)
  have hlength : readLength env ⟨25, [], [], false, 1, 0, false, false⟩ =
      .ok (11, some 1) ⟨26, [], [], false, 1, 0, false, false⟩ := by
    rfl
  have hfirst : round (elementRound env .function child) (⟨11, 0, 0⟩, ())
      ⟨26, [], [], false, 1, 0, false, false⟩ =
      .ok (⟨7, 3, 1⟩, ()) ⟨30, [], [], false, 1, 1, false, false⟩ := by
    rfl
  have hloop : ∃ s, loop (elementRound env .function child) rounds (⟨11, 0, 0⟩, ())
      ⟨26, [], [], false, 1, 0, false, false⟩ = .error .endless s ∧
        (1 < rounds → s.stuck = true) := by
    cases rounds with
    | zero => exact ⟨_, rfl, fun h => absurd h (Nat.not_lt_zero 1)⟩
    | succ n =>
      obtain ⟨s, hrest, hstuck⟩ := loop_endless hchild n (v := ⟨7, 3, 1⟩) rfl rfl
        (s := ⟨30, [], [], false, 1, 1, false, false⟩) rfl
      exact ⟨s, (bind_ok hfirst).trans hrest, fun h => hstuck (.inr (Nat.lt_of_succ_lt_succ h))⟩
  obtain ⟨s, hrun, hstuck⟩ := hloop
  have hall : elementLoop env .function child 11 none () ⟨26, [], [], false, 1, 0, false, false⟩ =
      .error .endless s := (bind_ok rfl).trans ((bind_ok rfl).trans hrun)
  have hopened : opened ⟨25, [], [], false, 0, 0, false, false⟩ =
      .ok () ⟨25, [], [], false, 1, 0, false, false⟩ := rfl
  exact ⟨s, (bind_ok hopened).trans ((bind_ok hlength).trans (bind_error hall)), hstuck⟩

/-- A file that is cut off is read for ever, and a whole one takes more rounds than twice its size,
with one seek head. -/
theorem header_unbounded :
    (∀ rounds, ∃ s, readHeader (wholeFile infoFile rounds) [(25, .info)] .start =
      .error .endless s ∧ (1 < rounds → s.stuck = true)) ∧
    ∃ s, readHeader (wholeFile chaptersFile 300) [(156, .seekhead)] .start = .ok () s ∧
      s.cut = false ∧ s.parsedSeekhead = [156] ∧ 2 * chaptersFile.length < s.iterations := by
  constructor
  · intro rounds
    obtain ⟨s, hinfo, hstuck⟩ := infoFile_endless rounds
    refine ⟨s, ?_, hstuck⟩
    have hfailed : failed (readHeaderElement (wholeFile infoFile rounds) .info)
        ⟨25, [], [], false, 0, 0, false, false⟩ = .error .endless s := by
      rw [failed, readHeaderElement, hinfo]
    exact (bind_ok (m := streamSeek _ 25) rfl).trans (bind_error hfailed)
  · have hrun : ended (readHeader (wholeFile chaptersFile 300) [(156, .seekhead)] .start)
        (fun s => s.cut == false && (s.parsedSeekhead == [156] &&
          decide (2 * chaptersFile.length < s.iterations))) = true := by decide +kernel
    obtain ⟨s, hrun, hs⟩ := exists_of_ended hrun
    obtain ⟨hcut, hs⟩ := Bool.and_eq_true_iff.mp hs
    obtain ⟨hheads, hmore⟩ := Bool.and_eq_true_iff.mp hs
    exact ⟨s, hrun, eq_of_beq hcut, eq_of_beq hheads, of_decide_eq_true hmore⟩

end MPlayer.Parse
