import MPlayer.Lib.Steps
import MPlayer.Mkv.Parsing
import Mathlib.Data.List.Nodup
import Mathlib.Data.Finset.Card

/-!
# Progress in the header

As long as the end of the stream cuts off no id and no length, a round of a loop takes at least the
byte of an id, so the rounds of all loops inside of an element are paid for by its bytes (`Pays`).
A seek head leads to other positions, which are paid for by the elements that are read there
(`Spends`): each of them costs at most the size of the file.
-/

namespace MPlayer

open Lib

/-! ## What is paid -/

/-- The elements that have been read. -/
def ParseState.passes (s : ParseState) : Nat :=
  s.parsedSeekhead.length + s.parsedCues.length + s.others

/-- The states of a run that may follow seek heads `depth` deep. -/
structure ParseState.Sane (env : ParseEnv) (depth : Nat) (s : ParseState) : Prop where
  inside : s.pos ≤ env.file.length
  heads : s.parsedSeekhead.Nodup
  within : ∀ pos ∈ s.parsedSeekhead, pos ≤ env.file.length
  cues : s.parsedCues.Nodup
  deep : env.file.length + 2 ≤ depth + s.parsedSeekhead.length

/-- The rounds from one state to the other are paid for by at least `k` bytes, and by the elements
that have been read. -/
structure ParseState.Costs (env : ParseEnv) (k : Nat) (s s' : ParseState) : Prop where
  pos : s.pos + k ≤ s'.pos
  passes : s.passes ≤ s'.passes
  rounds : s'.iterations + s.pos + k + env.file.length * s.passes ≤
    s.iterations + s'.pos + env.file.length * s'.passes
  stuck : s'.stuck = s.stuck

/-- Unless something is cut off, the rounds are paid for. -/
structure ParseState.Paid (env : ParseEnv) (k : Nat) (s s' : ParseState) : Prop where
  cut : s'.cut = false → s.cut = false
  heads : s.parsedSeekhead.length ≤ s'.parsedSeekhead.length
  costs : s'.cut = false → s.Costs env k s'

/-- Unless something is cut off, the rounds are paid for by the elements that have been read. -/
structure ParseState.Spent (env : ParseEnv) (s s' : ParseState) : Prop where
  cut : s'.cut = false → s.cut = false
  heads : s.parsedSeekhead.length ≤ s'.parsedSeekhead.length
  passes : s'.cut = false → s.passes ≤ s'.passes
  rounds : s'.cut = false →
    s'.iterations + env.file.length * s.passes ≤ s.iterations + env.file.length * s'.passes
  stuck : s'.cut = false → s'.stuck = s.stuck

variable {env : ParseEnv} {k : Nat}

theorem ParseState.Paid.refl (s : ParseState) : s.Paid env 0 s :=
  ⟨fun h => h, Nat.le.refl, fun _ => ⟨Nat.le.refl, Nat.le.refl, Nat.le.refl, rfl⟩⟩

variable {s s' : ParseState} {cut : Bool}

theorem ParseState.Paid.trans {s'' : ParseState} (h : s.Paid env k s') (h' : s'.Paid env 0 s'') :
    s.Paid env k s'' where
  cut := fun hcut => h.cut (h'.cut hcut)
  heads := Nat.le_trans h.heads h'.heads
  costs := by
    intro hcut
    obtain ⟨hpos, hpasses, hrounds, hstuck⟩ := h.costs (h'.cut hcut)
    obtain ⟨hpos', hpasses', hrounds', hstuck'⟩ := h'.costs hcut
    exact ⟨by omega, Nat.le_trans hpasses hpasses', by omega, hstuck'.trans hstuck⟩

theorem ParseState.Spent.refl (s : ParseState) : s.Spent env s :=
  ⟨fun h => h, Nat.le.refl, fun _ => Nat.le.refl, fun _ => Nat.le.refl, fun _ => rfl⟩

theorem ParseState.Spent.trans {s'' : ParseState} (h : s.Spent env s') (h' : s'.Spent env s'') :
    s.Spent env s'' where
  cut := fun hcut => h.cut (h'.cut hcut)
  heads := Nat.le_trans h.heads h'.heads
  passes := fun hcut => Nat.le_trans (h.passes (h'.cut hcut)) (h'.passes hcut)
  rounds := by
    intro hcut
    have hrounds := h.rounds (h'.cut hcut)
    have hrounds' := h'.rounds hcut
    omega
  stuck := fun hcut => (h'.stuck hcut).trans (h.stuck (h'.cut hcut))

/-- Where the stream stands costs nothing. -/
theorem ParseState.Spent.moved (s : ParseState) {pos : Nat} (hcut : cut = false → s.cut = false) :
    s.Spent env { s with pos := pos, cut := cut } :=
  ⟨hcut, Nat.le.refl, fun _ => Nat.le.refl, fun _ => Nat.le.refl, fun _ => rfl⟩

/-- Cues at one position are read once. -/
theorem ParseState.Sane.cues_read {depth : Nat} (hs : s.Sane env depth)
    (hnew : s.pos ∉ s.parsedCues) :
    ({ s with parsedCues := s.parsedCues ++ [s.pos] } : ParseState).Sane env depth where
  inside := hs.inside
  heads := hs.heads
  within := hs.within
  cues := by
    refine List.nodup_append.mpr ⟨hs.cues, List.nodup_singleton _, fun a ha b hb => ?_⟩
    rw [List.mem_singleton.mp hb]
    exact fun heq => hnew (heq ▸ ha)
  deep := hs.deep

/-- Only where something is cut off a loop has no end. -/
structure ParseState.Ends (env : ParseEnv) (depth : Nat) (e : ParseStop) (s : ParseState) :
    Prop where
  sane : s.Sane env depth
  endless : e = .endless → s.cut = true

namespace Parse

open ParseState

section

variable (env : ParseEnv) (depth : Nat) {α : Type}

/-- The rounds of the code are paid for by its bytes. -/
def Pays (k : Nat) (m : Parse α) : Prop :=
  Steps (Sane env depth) (Sane env depth) (Paid env k) (Ends env depth) m

/-- The rounds of the code are paid for by the elements that it reads. -/
def Spends (m : Parse α) : Prop :=
  Steps (Sane env depth) (Sane env depth) (Spent env) (Ends env depth) m

end

variable {depth : Nat} {α β σ : Type}

variable {m : Parse α}

theorem Pays.bind {f : α → Parse β} (hm : Pays env depth k m) (hf : ∀ a, Pays env depth 0 (f a)) :
    Pays env depth k (m >>= f) :=
  Steps.bind hm hf (fun hend h => ⟨hend, h⟩) Paid.trans

theorem Pays.pure (a : α) : Pays env depth 0 (pure a) := Steps.pure Paid.refl a

theorem Pays.left : Pays env depth 0 (throw .left : Parse α) :=
  Steps.throw (fun hs => ⟨hs, fun h => by cases h⟩) Paid.refl

theorem Pays.ite {c : Prop} [Decidable c] {m' : Parse α} (hm : Pays env depth k m)
    (hm' : Pays env depth k m') : Pays env depth k (if c then m else m') := by
  split
  · exact hm
  · exact hm'

theorem Spends.bind {f : α → Parse β} (hm : Spends env depth m) (hf : ∀ a, Spends env depth (f a)) :
    Spends env depth (m >>= f) :=
  Steps.bind hm hf (fun hend h => ⟨hend, h⟩) Spent.trans

theorem Spends.pure (a : α) : Spends env depth (pure a) := Steps.pure Spent.refl a

theorem Spends.ite {c : Prop} [Decidable c] {m' : Parse α} (hm : Spends env depth m)
    (hm' : Spends env depth m') : Spends env depth (if c then m else m') := by
  split
  · exact hm
  · exact hm'

/-! ## Reading -/

theorem reader_rest {pos : Nat} (h : pos ≤ env.file.length) :
    pos + (reader env pos).rest.length = env.file.length := by
  rw [reader, List.length_drop]
  omega

theorem ebmlReadId_skip (r : Reader) : ∃ n, 0 < n ∧ (ebmlReadId r).2 = r.skip n := by
  cases hr : r.rest with
  | nil =>
    rw [ebmlReadId, hr]
    exact ⟨1, Nat.one_pos, rfl⟩
  | cons b rest =>
    rw [ebmlReadId, hr]
    simp only
    split
    · exact ⟨1, Nat.one_pos, rfl⟩
    · exact ⟨_, Nat.succ_pos _, rfl⟩

theorem ebmlReadLength_skip (r : Reader) : ∃ n, 0 < n ∧ (ebmlReadLength r).2 = r.skip n := by
  cases hr : r.rest with
  | nil =>
    rw [ebmlReadLength, hr]
    exact ⟨1, Nat.one_pos, rfl⟩
  | cons b rest =>
    rw [ebmlReadLength, hr]
    simp only
    split
    · exact ⟨1, Nat.one_pos, rfl⟩
    · exact ⟨_, Nat.succ_pos _, rfl⟩

end Parse

theorem ParseState.Sane.skip_le (hs : s.Sane env depth) (n : Nat) :
    ((Parse.reader env s.pos).skip n).pos ≤ env.file.length := by
  have hrest := Parse.reader_rest hs.inside
  have hmin := Nat.min_le_right n (Parse.reader env s.pos).rest.length
  have hpos : ((Parse.reader env s.pos).skip n).pos =
      s.pos + min n (Parse.reader env s.pos).rest.length := rfl
  omega

/-- A state that is moved forward. -/
theorem ParseState.Sane.moved (hs : s.Sane env depth) {n : Nat} :
    ({ s with pos := ((Parse.reader env s.pos).skip n).pos, cut := cut } :
      ParseState).Sane env depth where
  inside := hs.skip_le n
  heads := hs.heads
  within := hs.within
  cues := hs.cues
  deep := hs.deep

/-- A state that is moved forward by at least `k` bytes, unless something is cut off. -/
theorem ParseState.Paid.moved (s : ParseState) {n : Nat}
    (hcut : cut = false → s.cut = false ∧ k ≤ min n (Parse.reader env s.pos).rest.length) :
    s.Paid env k { s with pos := ((Parse.reader env s.pos).skip n).pos, cut := cut } where
  cut := fun h => (hcut h).1
  heads := Nat.le.refl
  costs := by
    intro h
    obtain ⟨-, hmin⟩ := hcut h
    have hpos : ((Parse.reader env s.pos).skip n).pos = s.pos +
      min n (Parse.reader env s.pos).rest.length := rfl
    refine ⟨?_, Nat.le.refl, ?_, rfl⟩
    · simp only [hpos]
      omega
    · simp only [hpos, passes]
      omega

namespace Parse

open ParseState

variable {pos : Nat} {s : ParseState} {body : Vars × σ → Parse (Vars × σ)}

/-- What isn't cut off is in the stream. -/
theorem le_of_skip_eof {n : Nat} (h : ((reader env pos).skip n).eof = false) :
    n ≤ (reader env pos).rest.length := by
  change (false || decide ((reader env pos).rest.length < n)) = false at h
  rw [Bool.false_or] at h
  exact Nat.not_lt.mp (of_decide_eq_false h)

theorem readId_pays : Pays env depth 1 (readId env) := by
  refine Steps.total (a := fun s => (ebmlReadId (reader env s.pos)).1)
    (f := fun s => { s with
      pos := (ebmlReadId (reader env s.pos)).2.pos
      cut := s.cut || (ebmlReadId (reader env s.pos)).2.eof }) (fun s => rfl) ?_ ?_
  · intro s hs
    obtain ⟨n, -, hn⟩ := ebmlReadId_skip (reader env s.pos)
    rw [hn]
    exact hs.moved
  · intro s hs
    obtain ⟨n, hpos, hn⟩ := ebmlReadId_skip (reader env s.pos)
    rw [hn]
    refine .moved s fun hcut => ?_
    obtain ⟨hold, hnew⟩ := Bool.or_eq_false_iff.mp hcut
    have hle := le_of_skip_eof hnew
    exact ⟨hold, by omega⟩

theorem readElement_pays {read : Reader → α × Reader}
    (hread : ∀ r, ∃ n, (read r).2 = (ebmlReadLength r).2.skip n) :
    Pays env depth 0 (readElement env read) := by
  have hskip : ∀ r, ∃ n, (read r).2 = r.skip n := by
    intro r
    obtain ⟨n, hn⟩ := hread r
    obtain ⟨m, -, hm⟩ := ebmlReadLength_skip r
    exact ⟨m + n, by rw [hn, hm, Reader.skip_skip]⟩
  refine Steps.total (a := fun s => (read (reader env s.pos)).1)
    (f := fun s => { s with
      pos := (read (reader env s.pos)).2.pos
      cut := s.cut || (ebmlReadLength (reader env s.pos)).2.eof }) (fun s => rfl) ?_ ?_
  · intro s hs
    obtain ⟨n, hn⟩ := hskip (reader env s.pos)
    rw [hn]
    exact hs.moved
  · intro s hs
    obtain ⟨n, hn⟩ := hskip (reader env s.pos)
    rw [hn]
    exact .moved s fun hcut => ⟨(Bool.or_eq_false_iff.mp hcut).1, Nat.zero_le _⟩

theorem skip_zero (r : Reader) : r = r.skip 0 := by
  simp [Reader.skip, Reader.read]

theorem ebmlReadUint_skip (r : Reader) : ∃ n, (ebmlReadUint r).2 = (ebmlReadLength r).2.skip n := by
  rw [ebmlReadUint, ebmlNumberLength]
  obtain ⟨⟨len, l⟩, r⟩ := ebmlReadLength r
  cases l with
  | none => exact ⟨0, skip_zero r⟩
  | some l =>
    simp only
    split
    · next h =>
      split at h
      · cases h
        exact ⟨0, skip_zero _⟩
      · cases h
    · next h =>
      split at h
      · cases h
      · cases h
        exact ⟨_, rfl⟩

theorem ebmlReadFloat_skip (r : Reader) :
    ∃ n, (ebmlReadFloat r).2 = (ebmlReadLength r).2.skip n := by
  rw [ebmlReadFloat]
  obtain ⟨⟨len, l⟩, r⟩ := ebmlReadLength r
  simp only
  split
  · exact ⟨_, rfl⟩
  · split
    · exact ⟨_, rfl⟩
    · exact ⟨0, skip_zero r⟩

theorem ebmlReadAscii_skip (r : Reader) :
    ∃ n, (ebmlReadAscii r).2 = (ebmlReadLength r).2.skip n := by
  rw [ebmlReadAscii]
  obtain ⟨⟨len, l⟩, r⟩ := ebmlReadLength r
  cases l with
  | none => exact ⟨0, skip_zero r⟩
  | some l =>
    simp only
    split
    · exact ⟨0, skip_zero r⟩
    · split
      · exact ⟨0, skip_zero r⟩
      · exact ⟨_, rfl⟩

/-- A number of up to eight bytes has up to 56 bits, or it isn't one. -/
theorem ebmlNumber_short (b : UInt8) {i : Nat} {bytes : List UInt8} (hi : i < 8)
    (hlen : bytes.length = i) :
    ebmlNumber b i bytes = ebmlUintInvalid ∨ ebmlNumber b i bytes < 2 ^ 56 := by
  by_cases hones : i + 1 = (if b.toNat % 2 ^ (7 - i) = 2 ^ (7 - i) - 1 then 1 else 0) +
      bytes.count 255
  · exact .inl (if_pos hones)
  · rw [ebmlNumber, if_neg hones]
    right
    have hnum : b.toNat % 2 ^ (7 - i) + 1 ≤ 2 ^ (7 - i) := Nat.mod_lt _ (Nat.two_pow_pos _)
    calc beValue (b.toNat % 2 ^ (7 - i)) bytes
        < (b.toNat % 2 ^ (7 - i) + 1) * 256 ^ bytes.length := (beValue_bounds bytes _).2
      _ ≤ 2 ^ (7 - i) * 256 ^ bytes.length := Nat.mul_le_mul_right _ hnum
      _ = 2 ^ (7 * (i + 1)) := by rw [hlen, pow_vlen hi]
      _ ≤ 2 ^ 56 := Nat.pow_le_pow_right Nat.two_pos (by omega)

/-- A length that isn't cut off is short, or it isn't one. -/
theorem ebmlReadLength_short (h : (ebmlReadLength (reader env pos)).2.eof = false) :
    (ebmlReadLength (reader env pos)).1.1 = ebmlUintInvalid ∨
      (ebmlReadLength (reader env pos)).1.1 < 2 ^ 56 := by
  rw [ebmlReadLength] at h ⊢
  cases hr : (reader env pos).rest with
  | nil => exact .inl rfl
  | cons b rest =>
    rw [hr] at h
    simp only at h ⊢
    split
    · exact .inl rfl
    · next hlead =>
      rw [if_neg hlead] at h
      have hle := le_of_skip_eof h
      rw [hr, List.length_cons] at hle
      have hrest : leadingZeros 8 b ≤ rest.length := Nat.le_of_succ_le_succ hle
      rw [if_neg (Nat.not_lt.mpr hrest)]
      exact ebmlNumber_short b (Nat.not_le.mp hlead) (List.length_take_of_le hrest)

theorem ebmlReadSkip_skip {r r' : Reader} {l : Option Nat} (h : ebmlReadSkip r = some (l, r')) :
    ∃ n, r' = (ebmlReadLength r).2.skip n := by
  rw [ebmlReadSkip] at h
  generalize ebmlReadLength r = read at h
  obtain ⟨⟨len, l⟩, r⟩ := read
  cases l with
  | none =>
    cases h
    exact ⟨0, skip_zero _⟩
  | some l =>
    simp only at h
    split at h
    · cases h
      exact ⟨0, skip_zero _⟩
    · split at h
      · cases h
      · cases h
        exact ⟨len, rfl⟩

/-- A skip backwards is one behind a length that is cut off. -/
theorem ebmlReadSkip_backward (h : ebmlReadSkip (reader env pos) = none) :
    (ebmlReadLength (reader env pos)).2.eof = true := by
  cases heof : (ebmlReadLength (reader env pos)).2.eof with
  | true => rfl
  | false =>
    have hshort := ebmlReadLength_short heof
    rw [ebmlReadSkip] at h
    generalize ebmlReadLength (reader env pos) = read at h hshort
    obtain ⟨⟨len, l⟩, r⟩ := read
    cases l with
    | none => cases h
    | some l =>
      simp only at h hshort
      split at h
      · cases h
      · next hne =>
        have hlen : ¬2 ^ 63 ≤ len := by
          have hlt := hshort.resolve_left hne
          omega
        rw [if_neg hlen] at h
        cases h

theorem readLength_pays : Pays env depth 0 (readLength env) :=
  readElement_pays fun _ => ⟨0, skip_zero _⟩

theorem readUint_pays : Pays env depth 0 (readElement env ebmlReadUint) :=
  readElement_pays ebmlReadUint_skip

theorem junk_pays (x : Nat) : Pays env depth 0 (junk env x) :=
  Steps.total (fun _ => rfl) (fun hs => hs) fun _ => .refl _

theorem get_pays : Pays env depth 0 (get : Parse ParseState) :=
  Steps.total (a := fun s => s) (f := fun s => s) (fun _ => rfl) (fun hs => hs) fun _ => .refl _

theorem streamRead_pays (len : Nat) : Pays env depth 0 (streamRead env len) := by
  unfold streamRead
  generalize toInt32 len = n
  by_cases hn : n < 0
  · simp only [if_pos hn]
    exact Steps.total (a := fun _ => n) (f := fun s => s) (fun _ => rfl) (fun hs => hs) fun _ =>
      .refl _
  · simp only [if_neg hn]
    refine Steps.total (a := fun s => ((reader env s.pos).read n.toNat).1.length)
      (f := fun s => { s with pos := ((reader env s.pos).skip n.toNat).pos }) (fun _ => rfl) ?_ ?_
    · intro s hs
      exact hs.moved
    · intro s _
      exact .moved s fun hcut => ⟨hcut, Nat.zero_le _⟩

/-- A state that is moved anywhere in the file. -/
theorem sane_of_pos (hs : s.Sane env depth) {cut : Bool} (hpos : pos ≤ env.file.length) :
    ({ s with pos := pos, cut := cut } : ParseState).Sane env depth :=
  ⟨hpos, hs.heads, hs.within, hs.cues, hs.deep⟩

/-- An element that is skipped only moves the position. -/
theorem readSkip_eq (hs : s.Sane env depth) : ∃ l pos cut,
    readSkip env s = .ok l { s with pos := pos, cut := cut } ∧ pos ≤ env.file.length ∧
      (cut = false → s.cut = false ∧ ∃ n, pos = ((reader env s.pos).skip n).pos) := by
  rw [readSkip]
  simp only
  obtain ⟨m, -, hm⟩ := ebmlReadLength_skip (reader env s.pos)
  split
  · next l r hskip =>
    obtain ⟨n, hn⟩ := ebmlReadSkip_skip hskip
    rw [hm, Reader.skip_skip] at hn
    subst hn
    refine ⟨_, _, _, rfl, hs.skip_le _, fun hcut => ?_⟩
    exact ⟨(Bool.or_eq_false_iff.mp hcut).1, _, rfl⟩
  · next hskip =>
    have hcut := ebmlReadSkip_backward hskip
    have hinside := hs.skip_le m
    rw [hm] at hcut ⊢
    refine ⟨_, _, _, rfl, Nat.le_trans (Nat.sub_le _ _) hinside, fun hnot => ?_⟩
    rw [hcut, Bool.or_true] at hnot
    cases hnot

theorem readSkip_pays : Pays env depth 0 (readSkip env) := by
  constructor
  · intro s a s' hs hrun
    obtain ⟨l, pos, cut, heq, hpos, hcut⟩ := readSkip_eq hs
    rw [heq] at hrun
    cases hrun
    refine ⟨sane_of_pos hs hpos, fun h => (hcut h).1, Nat.le.refl, fun h => ?_⟩
    obtain ⟨hold, n, hn⟩ := hcut h
    subst hn
    exact (Paid.moved (k := 0) s fun hc => ⟨(hcut hc).1, Nat.zero_le _⟩).costs h
  · intro s e s' hs hrun
    obtain ⟨l, pos, cut, heq, -⟩ := readSkip_eq hs
    rw [heq] at hrun
    cases hrun

theorem readSkip_spends : Spends env depth (readSkip env) := by
  constructor
  · intro s a s' hs hrun
    obtain ⟨l, pos, cut, heq, hpos, hcut⟩ := readSkip_eq hs
    rw [heq] at hrun
    cases hrun
    exact ⟨sane_of_pos hs hpos, .moved s fun h => (hcut h).1⟩
  · intro s e s' hs hrun
    obtain ⟨l, pos, cut, heq, -⟩ := readSkip_eq hs
    rw [heq] at hrun
    cases hrun

/-! ## Loops -/

/-- What a round does that goes on or is left. -/
structure Rounded (env : ParseEnv) (s s' : ParseState) : Prop where
  paid : s.Paid env 0 s'
  pos : s'.cut = false → s.pos + 1 ≤ s'.pos

/-- A round is paid for by a byte of its own. -/
theorem round_rounded (hbody : ∀ v, Pays env depth 1 (body v)) (v : Vars × σ) :
    Steps (Sane env depth) (Sane env depth) (Rounded env) (Ends env depth) (round body v) := by
  have hstart : ∀ {s : ParseState}, s.Sane env depth →
      ({ s with iterations := s.iterations + 1 } : ParseState).Sane env depth :=
    fun hs => ⟨hs.inside, hs.heads, hs.within, hs.cues, hs.deep⟩
  have hpaid : ∀ {s s' : ParseState},
      ({ s with iterations := s.iterations + 1 } : ParseState).Paid env 1 s' →
        Rounded env s s' := by
    intro s s' h
    refine ⟨⟨h.cut, h.heads, fun hcut => ?_⟩, fun hcut => (h.costs hcut).pos⟩
    obtain ⟨hpos, hpasses, hrounds, hstuck⟩ := h.costs hcut
    exact ⟨Nat.le_of_succ_le hpos, hpasses, by simp only [passes] at hrounds ⊢; omega, hstuck⟩
  constructor
  · intro s a s' hs hrun
    rw [round] at hrun
    split at hrun
    · next a' s₁ hstep =>
      obtain ⟨hsane, hstep⟩ := (hbody v).ok (hstart hs) hstep
      have hround := hpaid hstep
      cases hrun
      refine ⟨⟨hsane.inside, hsane.heads, hsane.within, hsane.cues, hsane.deep⟩,
        ⟨hround.paid.cut, hround.paid.heads, fun hcut => ?_⟩, hround.pos⟩
      obtain ⟨hpos, hpasses, hrounds, hstuck⟩ := hround.paid.costs hcut
      refine ⟨hpos, hpasses, hrounds, ?_⟩
      have hforward : ¬s₁.pos ≤ s.pos := Nat.not_le.mpr (hround.pos hcut)
      simp only [decide_eq_false hforward, Bool.or_false]
      exact hstuck
    · cases hrun
  · intro s e s' hs hrun
    rw [round] at hrun
    split at hrun
    · cases hrun
    · next e' s₁ hstep =>
      obtain ⟨hends, hpays⟩ := (hbody v).error (hstart hs) hstep
      cases hrun
      exact ⟨hends, hpaid hpays⟩

/-- A loop that is followed for more rounds than there are bytes left comes to an end. -/
theorem loop_steps (hbody : ∀ v, Pays env depth 1 (body v)) (n : Nat) (v : Vars × σ) :
    Steps (fun s => s.Sane env depth ∧ (s.cut = false → env.file.length < n + s.pos))
      (Sane env depth) (Paid env 0) (Ends env depth) (loop body n v) := by
  induction n generalizing v with
  | zero =>
    rw [loop]
    split
    · exact (Pays.pure v.2).weaken And.left (fun _ h _ => h) (fun h => h)
    · refine Steps.throw (fun hs => ⟨hs.1, fun _ => ?_⟩) Paid.refl
      have hinside := hs.1.inside
      cases hcut : ParseState.cut _ with
      | true => rfl
      | false => exact absurd (hs.2 hcut) (by omega)
  | succ n ih =>
    rw [loop]
    split
    · exact (Pays.pure v.2).weaken And.left (fun _ h _ => h) (fun h => h)
    · refine Steps.bind (R := Rounded env) ?_ ih (fun hend hround => ⟨hend, hround.paid⟩)
        fun hround hpaid => hround.paid.trans hpaid
      refine (round_rounded hbody v).weaken And.left ?_ (fun h => h)
      intro s s' hs hsane hround
      refine ⟨hsane, fun hcut => ?_⟩
      have hbefore := hs.2 (hround.paid.cut hcut)
      have hforward := hround.pos hcut
      omega

theorem loop_pays (henough : env.file.length < env.rounds)
    (hbody : ∀ v, Pays env depth 1 (body v)) (v : Vars × σ) :
    Pays env depth 0 (loop body env.rounds v) :=
  (loop_steps hbody env.rounds v).weaken (fun hs => ⟨hs, fun _ => by omega⟩) (fun _ h _ => h)
    fun h => h

/-! ## Elements -/

theorem declared_pays (scope : Scope) (v : Vars) : Pays env depth 0 (declared env scope v) := by
  cases scope with
  | function => exact .pure v
  | block => exact .bind (junk_pays 0) fun _ => .bind (junk_pays 1) fun _ => .pure _

theorem elementRound_pays {scope : Scope} {child : Nat → σ → Parse (σ × Option Nat)}
    (hchild : ∀ id x, Pays env depth 0 (child id x)) (v : Vars × σ) :
    Pays env depth 1 (elementRound env scope child v) :=
  .bind readId_pays fun _ => .bind (declared_pays scope v.1) fun _ =>
    .bind (hchild _ v.2) fun _ => .pure _

theorem uint_pays : Pays env depth 0 (uint env) :=
  .bind readUint_pays fun _ => .ite .left (.pure _)

theorem anyUint_pays : Pays env depth 0 (anyUint env) :=
  .bind readUint_pays fun _ => .pure _

theorem float_pays : Pays env depth 0 (float env) :=
  .bind (readElement_pays ebmlReadFloat_skip) fun _ => .ite (.pure _) .left

theorem string_pays : Pays env depth 0 (string env) :=
  .bind (readElement_pays ebmlReadAscii_skip) fun _ => .ite .left (.pure _)

theorem anyString_pays : Pays env depth 0 (anyString env) :=
  .bind (readElement_pays ebmlReadAscii_skip) fun _ => .pure _

theorem compSettings_pays : Pays env depth 0 (compSettings env) :=
  .bind readLength_pays fun _ => .bind (junk_pays 2) fun _ =>
    .bind (streamRead_pays _) fun _ => .pure _

theorem codecPrivate_pays : Pays env depth 0 (codecPrivate env) :=
  .bind readLength_pays fun _ => .bind (junk_pays 2) fun _ =>
    .ite .left (.bind (streamRead_pays _) fun _ => .ite .left (.pure _))

theorem fileData_pays : Pays env depth 0 (fileData env) :=
  .bind readLength_pays fun _ => .bind (junk_pays 2) fun _ => .bind get_pays fun _ =>
    .ite .left (.bind (streamRead_pays _) fun _ => .ite .left (.pure _))

section Elements

variable (henough : env.file.length < env.rounds)

include henough

theorem elementLoop_pays {scope : Scope} {child : Nat → σ → Parse (σ × Option Nat)}
    (hchild : ∀ id x, Pays env depth 0 (child id x)) (length : Nat) (il : Option Nat) (x : σ) :
    Pays env depth 0 (elementLoop env scope child length il x) :=
  .bind (junk_pays 0) fun _ => .bind (junk_pays 1) fun _ =>
    loop_pays henough (elementRound_pays hchild) _

theorem master_pays {child : Nat → σ → Parse (σ × Option Nat)}
    (hchild : ∀ id x, Pays env depth 0 (child id x)) (x : σ) :
    Pays env depth 0 (master env child x) :=
  .bind readLength_pays fun _ => .bind (junk_pays 2) fun _ =>
    .bind (elementLoop_pays henough hchild _ _ x) fun _ => .pure _

variable {child : Nat → Parse (Option Nat)}

theorem nested_pays (hchild : ∀ id, Pays env depth 0 (child id)) :
    Pays env depth 0 (nested env child) :=
  .bind (master_pays henough (fun id _ => .bind (hchild id) fun _ => .pure _) ()) fun _ => .pure _

theorem called_pays (hchild : ∀ id, Pays env depth 0 (child id)) :
    Pays env depth 0 (called env child) :=
  .bind readLength_pays fun _ => .bind (junk_pays 2) fun _ =>
    .bind (elementLoop_pays henough (fun id _ => .bind (hchild id) fun _ => .pure _) _ _ ())
      fun _ =>
      .ite .left (.pure _)

theorem element_pays (hchild : ∀ id, Pays env depth 0 (child id)) :
    Pays env depth 0 (element env child) :=
  .bind readLength_pays fun _ =>
    .bind (elementLoop_pays henough (fun id _ => .bind (hchild id) fun _ => .pure _) _ _ ())
      fun _ =>
      .pure _

theorem trackencodings_pays : Pays env depth 0 (demuxMkvReadTrackencodings env) :=
  called_pays henough fun _ => .ite
    (nested_pays henough fun _ => .ite uint_pays <| .ite uint_pays <| .ite uint_pays <| .ite
      (nested_pays henough fun _ => .ite uint_pays <| .ite compSettings_pays readSkip_pays)
      readSkip_pays)
    readSkip_pays

theorem trackaudio_pays : Pays env depth 0 (demuxMkvReadTrackaudio env) :=
  called_pays henough fun _ => .ite float_pays <| .ite uint_pays <| .ite uint_pays readSkip_pays

theorem trackvideo_pays : Pays env depth 0 (demuxMkvReadTrackvideo env) :=
  called_pays henough fun _ => .ite float_pays <| .ite uint_pays <| .ite uint_pays <|
    .ite uint_pays <| .ite uint_pays readSkip_pays

theorem trackentry_pays : Pays env depth 0 (demuxMkvReadTrackentry env) :=
  called_pays henough fun _ => .ite uint_pays <| .ite string_pays <| .ite uint_pays <|
    .ite (trackaudio_pays henough) <| .ite (trackvideo_pays henough) <| .ite string_pays <|
    .ite codecPrivate_pays <| .ite string_pays <| .ite uint_pays <| .ite uint_pays <|
    .ite (trackencodings_pays henough) readSkip_pays

end Elements

/-! ## What is read once -/

/-- One more element is read. -/
structure Opened (s s₁ : ParseState) : Prop where
  passes : s₁.passes = s.passes + 1
  iterations : s₁.iterations = s.iterations
  heads : s.parsedSeekhead.length ≤ s₁.parsedSeekhead.length
  stuck : s₁.stuck = s.stuck
  cut : s₁.cut = s.cut

/-- An element costs at most the size of the file. -/
theorem Opened.spent {s₁ s' : ParseState} (h : Opened s s₁) (hpaid : s₁.Paid env 0 s')
    (hinside : s'.pos ≤ env.file.length) : s.Spent env s' where
  cut := fun hcut => h.cut ▸ hpaid.cut hcut
  heads := Nat.le_trans h.heads hpaid.heads
  passes := by
    intro hcut
    have hpasses := (hpaid.costs hcut).passes
    rw [h.passes] at hpasses
    exact Nat.le_of_succ_le hpasses
  rounds := by
    intro hcut
    have hrounds := (hpaid.costs hcut).rounds
    rw [h.passes, h.iterations, Nat.mul_succ] at hrounds
    omega
  stuck := fun hcut => (hpaid.costs hcut).stuck.trans h.stuck

/-- Code that pays for its rounds does so inside of the file. -/
theorem Pays.inside {m : Parse α} (hm : Pays env depth 0 m) :
    Steps (Sane env depth) (Sane env depth)
      (fun s s' => s.Paid env 0 s' ∧ s'.pos ≤ env.file.length) (Ends env depth) m where
  ok := by
    intro s a s' hs hrun
    obtain ⟨hsane, hpaid⟩ := hm.ok hs hrun
    exact ⟨hsane, hpaid, hsane.inside⟩
  error := by
    intro s e s' hs hrun
    obtain ⟨hends, hpaid⟩ := hm.error hs hrun
    exact ⟨hends, hpaid, hends.sane.inside⟩

/-- Code that opens an element and then pays for its rounds. -/
theorem Pays.spends {m m' : Parse α} (hm : Pays env depth 0 m) {f : ParseState → ParseState}
    (hm' : ∀ s, m' s = m (f s)) (hsane : ∀ {s}, s.Sane env depth → (f s).Sane env depth)
    (hopened : ∀ s, Opened s (f s)) : Spends env depth m' :=
  Steps.elsewhere fun {s} hs => ⟨_, _, _, m, f s, hm' s, hsane hs, hm.inside, fun {_} =>
    ⟨fun h => h, fun h => (hopened s).spent h.1 h.2⟩⟩

theorem get_spends : Spends env depth (get : Parse ParseState) :=
  Steps.total (a := fun s => s) (f := fun s => s) (fun _ => rfl) (fun hs => hs) fun _ => .refl _

theorem skipped_spends : Spends env depth (skipped env) :=
  .bind readSkip_spends fun _ => .pure _

theorem setChapters_pays : Pays env depth 0 (modify fun s => { s with chapters := true }) :=
  Steps.total (a := fun _ => ()) (f := fun s => { s with chapters := true }) (fun _ => rfl)
    (fun hs => ⟨hs.inside, hs.heads, hs.within, hs.cues, hs.deep⟩)
    fun _ => ⟨fun h => h, Nat.le.refl, fun _ => ⟨Nat.le.refl, Nat.le.refl, Nat.le.refl, rfl⟩⟩

section Elements

variable (henough : env.file.length < env.rounds)

/-- Another element is read that is not counted by its position. -/
theorem opened_spends {m : Parse α} (hm : Pays env depth 0 m) :
    Spends env depth (opened >>= fun _ => m) :=
  hm.spends (f := fun s => { s with others := s.others + 1 }) (fun _ => rfl)
    (fun hs => ⟨hs.inside, hs.heads, hs.within, hs.cues, hs.deep⟩)
    fun _ => ⟨rfl, rfl, Nat.le.refl, rfl, rfl⟩

include henough

theorem info_spends : Spends env depth (demuxMkvReadInfo env) :=
  opened_spends (element_pays henough fun _ => .ite uint_pays <| .ite float_pays readSkip_pays)

theorem tracks_spends : Spends env depth (demuxMkvReadTracks env) :=
  opened_spends (element_pays henough fun _ => .ite (trackentry_pays henough) readSkip_pays)

theorem attachments_spends : Spends env depth (demuxMkvReadAttachments env) :=
  opened_spends (element_pays henough fun _ => .ite
    (nested_pays henough fun _ => .ite string_pays <| .ite string_pays <|
      .ite fileData_pays readSkip_pays)
    readSkip_pays)

theorem chapterAtom_pays : Pays env depth 0 (chapterAtom env) :=
  .bind (nested_pays henough fun _ => .ite anyUint_pays <| .ite anyUint_pays <| .ite
    (nested_pays henough fun _ => .ite anyString_pays readSkip_pays) readSkip_pays) fun _ =>
    .bind setChapters_pays fun _ => .pure _

theorem chapters_spends : Spends env depth (demuxMkvReadChapters env) :=
  .bind get_spends fun _ => .ite skipped_spends <| opened_spends <| element_pays henough fun _ =>
    .ite (nested_pays henough fun _ => .ite (chapterAtom_pays henough) readSkip_pays) readSkip_pays

theorem cuePoints_pays : Pays env depth 0 (cuePoints env) :=
  element_pays henough fun _ => .ite
    (nested_pays henough fun _ => .ite anyUint_pays <| .ite
      (nested_pays henough fun _ => .ite anyUint_pays <| .ite anyUint_pays readSkip_pays)
      readSkip_pays)
    readSkip_pays

theorem cues_spends : Spends env depth (demuxMkvReadCues env) := by
  refine Steps.elsewhere fun {s} hs => ?_
  by_cases hskip : env.indexMode = 0 ∨ s.pos ∈ s.parsedCues
  · have hread : demuxMkvReadCues env s = skipped env s := by
      change (if env.indexMode = 0 ∨ s.pos ∈ s.parsedCues then skipped env else _) s = _
      rw [if_pos hskip]
    exact ⟨_, _, _, _, s, hread, hs, skipped_spends, fun {_} => ⟨fun h => h, fun h => h⟩⟩
  · have hread : demuxMkvReadCues env s =
        cuePoints env { s with parsedCues := s.parsedCues ++ [s.pos] } := by
      change (if env.indexMode = 0 ∨ s.pos ∈ s.parsedCues then skipped env else _) s = _
      rw [if_neg hskip]
      rfl
    have hopened : Opened s { s with parsedCues := s.parsedCues ++ [s.pos] } := by
      refine ⟨?_, rfl, Nat.le.refl, rfl, rfl⟩
      simp only [passes, List.length_append, List.length_singleton]
      omega
    exact ⟨_, _, _, _, _, hread, hs.cues_read (not_or.mp hskip).2, (cuePoints_pays henough).inside,
      fun {_} => ⟨fun h => h, fun h => hopened.spent h.1 h.2⟩⟩

end Elements

end Parse

end MPlayer
