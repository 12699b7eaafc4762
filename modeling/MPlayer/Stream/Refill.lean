import MPlayer.Lib.Fuel
import MPlayer.Stream.Backend
import Mathlib.Algebra.GroupWithZero.Nat

/-!
# What a refill keeps

A source is known by the results of its read callback: the bytes that each call delivers, and
whether it tells that the stream has ended.  A refill that has read some bytes goes on until
`STREAM_BUFFER_MIN` of them are there.  A call that delivers nothing then, without telling that
the stream has ended, makes `stream_read_internal` reconnect, and the bytes are forgotten.
-/

namespace MPlayer

open Lib

/-! ## Sources -/

/-- What a source has done: the calls of its read callback, and all the bytes it delivered. -/
structure Source where
  calls : Nat
  log : List UInt8

/-- The source after a call. -/
def Source.next (src : Source) (data : List UInt8) : Source := ⟨src.calls + 1, src.log ++ data⟩

/-- The results of the calls by their number and the length asked for. -/
abbrev Results := Nat → Nat → List UInt8 × Bool

/-- A source whose read callback has these results, and where a seek to the current position
succeeds. -/
structure ResultsBackend (ops : StreamOps Source) (type : StreamType) (results : Results) :
    Prop where
  read : ∀ s n, s.type = type → streamReadCallback ops s n = ((results s.priv.calls n).1,
    { s with
      eof := s.eof || (results s.priv.calls n).2
      priv := s.priv.next (results s.priv.calls n).1 })
  fits : ∀ i n, (results i n).1.length ≤ n
  seek : ∀ s, s.type = type → ∃ e, streamSeekInternal ops s s.pos = (-1, { s with eof := e })
  reset : ∀ s, callReset ops s = s

/-- A stream of this type that does not know its end. -/
structure Endless (type : StreamType) (s : Stream Source) : Prop where
  type_eq : s.type = type
  endPos_eq : s.endPos = 0

/-! ## `stream_read_internal` -/

variable {ops : StreamOps Source} {type : StreamType} {results : Results}

/-- The stream after a call that delivered something. -/
def Stream.deliver (s : Stream Source) (data : List UInt8) : Stream Source :=
  { s with eof := false, pos := s.pos + data.length, priv := s.priv.next data }

/-- The stream after a call that delivered nothing. -/
def Stream.starve (s : Stream Source) : Stream Source :=
  { s with eof := true, priv := s.priv.next [] }

/-- The stream after a reconnect. -/
def Stream.forget (s : Stream Source) : Stream Source := { s.starve with bufPos := 0, bufLen := 0 }

/-- Whether a call that delivers nothing is taken for the end of the stream. -/
def EndsAt (results : Results) (s : Stream Source) (n : Nat) : Prop :=
  s.eof = true ∨ (results s.priv.calls n).2 = true ∨ s.type = .dvdnav

/-- What `stream_read_internal` can do. -/
inductive ReadsTo (results : Results) (s : Stream Source) (n : Nat) :
    List UInt8 → Stream Source → Prop
  | delivers (hdata : (results s.priv.calls n).1 ≠ []) :
      ReadsTo results s n (results s.priv.calls n).1 (s.deliver (results s.priv.calls n).1)
  | ends (hdata : (results s.priv.calls n).1 = []) (hends : EndsAt results s n) :
      ReadsTo results s n [] s.starve
  | resumes (hdata : (results s.priv.calls n).1 = []) (hends : ¬EndsAt results s n)
      (hdata' : (results (s.priv.calls + 1) n).1 ≠ []) :
      ReadsTo results s n (results (s.priv.calls + 1) n).1
        (s.forget.deliver (results (s.priv.calls + 1) n).1)
  | fails (hdata : (results s.priv.calls n).1 = []) (hends : ¬EndsAt results s n)
      (hdata' : (results (s.priv.calls + 1) n).1 = []) : ReadsTo results s n [] s.forget.starve

variable {s s' : Stream Source} {n : Nat} {data log d : List UInt8} {pos : Int}

theorem ResultsBackend.reconnect (B : ResultsBackend ops type results) (h : s.type = type) :
    ∃ s', streamReconnect ops s = (true, s') ∧
      { s' with eof := true } = { s with bufPos := 0, bufLen := 0, eof := true } := by
  have hreset : streamReset ops { s with eof := true } =
      { s with bufPos := 0, bufLen := 0, eof := false } := by
    rw [streamReset, if_pos rfl, B.reset]
  obtain ⟨e, hseek⟩ := B.seek { s with bufPos := 0, bufLen := 0, eof := false } h
  refine ⟨{ s with bufPos := 0, bufLen := 0, eof := e }, ?_, rfl⟩
  rw [streamReconnect, maxReconnectRetries, streamReconnectLoop, hreset]
  dsimp only at hseek ⊢
  rw [hseek]
  exact if_neg (by simp)

theorem ResultsBackend.readCallback_nil (B : ResultsBackend ops type results) (h : s.type = type)
    (hdata : (results s.priv.calls n).1 = []) :
    streamReadCallback ops s n = ([], { s with
      eof := s.eof || (results s.priv.calls n).2, priv := s.priv.next [] }) := by
  rw [B.read s n h, hdata]

/-- A call that delivers something. -/
theorem ResultsBackend.readInternal_delivers (B : ResultsBackend ops type results) (fuel : Nat)
    (h : s.type = type) (hdata : (results s.priv.calls n).1 ≠ []) :
    streamReadInternal ops (fuel + 1) s n =
      some ((results s.priv.calls n).1, s.deliver (results s.priv.calls n).1) := by
  rw [streamReadInternal, B.read s n h]
  exact if_neg hdata

/-- A call that delivers nothing at the end of the stream. -/
theorem ResultsBackend.readInternal_ends (B : ResultsBackend ops type results) (fuel : Nat)
    (h : s.type = type) (hdata : (results s.priv.calls n).1 = []) (hends : EndsAt results s n) :
    streamReadInternal ops (fuel + 1) s n = some ([], s.starve) := by
  rw [streamReadInternal, B.readCallback_nil h hdata]
  dsimp only
  rw [if_pos rfl, if_pos]
  · rfl
  · rcases hends with h | h | h
    · exact Or.inl (by rw [h, Bool.true_or])
    · exact Or.inl (by rw [h, Bool.or_true])
    · exact Or.inr (Or.inr h)

/-- A call that delivers nothing elsewhere is made once more, behind a reconnect. -/
theorem ResultsBackend.readInternal_again (B : ResultsBackend ops type results) (fuel : Nat)
    (h : Endless type s) (hdata : (results s.priv.calls n).1 = []) (hends : ¬EndsAt results s n) :
    streamReadInternal ops (fuel + 1) s n = streamReadInternal ops fuel s.forget n := by
  obtain ⟨hne, hflag, hnav⟩ : s.eof = false ∧ (results s.priv.calls n).2 = false ∧
      s.type ≠ .dvdnav := by
    refine ⟨Bool.eq_false_iff.mpr fun h => ?_, Bool.eq_false_iff.mpr fun h => ?_, fun h => ?_⟩
    · exact hends (Or.inl h)
    · exact hends (Or.inr (Or.inl h))
    · exact hends (Or.inr (Or.inr h))
  rw [streamReadInternal, B.readCallback_nil h.type_eq hdata, hne, hflag, Bool.or_false]
  dsimp only
  obtain ⟨s', hreconnect, hs'⟩ := B.reconnect (s := { s with eof := false, priv := s.priv.next [] })
    h.type_eq
  rw [if_pos rfl, if_neg, hreconnect]
  · dsimp only
    rw [if_pos rfl, hs']
    rfl
  · rintro (h' | ⟨h', -⟩ | h')
    · cases h'
    · exact h' h.endPos_eq
    · exact hnav h'

theorem ReadsTo.of_some (B : ResultsBackend ops type results) (h : Endless type s) {fuel : Nat}
    (hread : streamReadInternal ops fuel s n = some (data, s')) : ReadsTo results s n data s' := by
  cases fuel with
  | zero => cases hread
  | succ fuel =>
    by_cases hdata : (results s.priv.calls n).1 = []
    · by_cases hends : EndsAt results s n
      · rw [B.readInternal_ends fuel h.type_eq hdata hends] at hread
        cases hread
        exact .ends hdata hends
      · rw [B.readInternal_again fuel h hdata hends] at hread
        cases fuel with
        | zero => cases hread
        | succ fuel =>
          by_cases hdata' : (results (s.priv.calls + 1) n).1 = []
          · rw [B.readInternal_ends fuel (s := s.forget) h.type_eq hdata' (Or.inl rfl)] at hread
            cases hread
            exact .fails hdata hends hdata'
          · rw [B.readInternal_delivers fuel (s := s.forget) h.type_eq hdata'] at hread
            cases hread
            exact .resumes hdata hends hdata'
    · rw [B.readInternal_delivers fuel h.type_eq hdata] at hread
      cases hread
      exact .delivers hdata

theorem ReadsTo.returns (B : ResultsBackend ops type results) (h : Endless type s)
    (hread : ReadsTo results s n data s') (fuel : Nat) :
    streamReadInternal ops (fuel + 2) s n = some (data, s') := by
  cases hread with
  | delivers hdata => exact B.readInternal_delivers _ h.type_eq hdata
  | ends hdata hends => exact B.readInternal_ends _ h.type_eq hdata hends
  | resumes hdata hends hdata' =>
    rw [B.readInternal_again _ h hdata hends]
    exact B.readInternal_delivers _ (s := s.forget) h.type_eq hdata'
  | fails hdata hends hdata' =>
    rw [B.readInternal_again _ h hdata hends]
    exact B.readInternal_ends _ (s := s.forget) h.type_eq hdata' (Or.inl rfl)

/-! ## The top-up -/

/-- The buffer holds what the source has delivered since its log was `log` and the stream stood
at `pos`. -/
structure Holding (type : StreamType) (log : List UInt8) (pos : Int) (d : List UInt8)
    (s : Stream Source) : Prop where
  endless : Endless type s
  log : s.priv.log = log ++ d
  bufPos : s.bufPos = 0
  bufLen : s.bufLen = d.length
  buffer : Mirrors s.buffer 0 d 0 d.length
  pos : s.pos = pos + d.length

/-- The `k`-th call from `i` on delivers nothing, while fewer than `STREAM_BUFFER_MIN` bytes are
there, and does not tell that the stream has ended. -/
structure BreaksAt (results : Results) (type : StreamType) (i len k : Nat) : Prop where
  before : ∀ j < k, (results (i + j) streamBufferMin).1 ≠ []
  few : len + ((List.range k).map fun j => (results (i + j) streamBufferMin).1.length).sum <
    streamBufferMin
  nothing : (results (i + k) streamBufferMin).1 = []
  goesOn : (results (i + k) streamBufferMin).2 = false
  not_dvdnav : type ≠ .dvdnav

/-- No call breaks the top-up. -/
def Unbroken (results : Results) (type : StreamType) (i len : Nat) : Prop :=
  ∀ k, ¬BreaksAt results type i len k

theorem BreaksAt.next {i len k : Nat} (hdata : (results i streamBufferMin).1 ≠ []) :
    BreaksAt results type (i + 1) (len + (results i streamBufferMin).1.length) k ↔
      BreaksAt results type i len (k + 1) := by
  have hshift (j : Nat) : i + 1 + j = i + (j + 1) := by omega
  have hsum : (List.range (k + 1)).map (fun j => (results (i + j) streamBufferMin).1.length) =
      (results i streamBufferMin).1.length ::
        (List.range k).map fun j => (results (i + 1 + j) streamBufferMin).1.length := by
    rw [List.range_succ_eq_map, List.map_cons, List.map_map]
    simp only [hshift, Function.comp_def, Nat.succ_eq_add_one, Nat.add_zero]
  constructor
  · intro h
    refine ⟨fun j hj => ?_, ?_, ?_, ?_, h.not_dvdnav⟩
    · cases j with
      | zero => exact hdata
      | succ j =>
        rw [← hshift]
        exact h.before j (by omega)
    · rw [hsum, List.sum_cons, ← Nat.add_assoc]
      exact h.few
    · rw [← hshift]
      exact h.nothing
    · rw [← hshift]
      exact h.goesOn
  · intro h
    have hfew := h.few
    rw [hsum, List.sum_cons, ← Nat.add_assoc] at hfew
    refine ⟨fun j hj => ?_, hfew, ?_, ?_, h.not_dvdnav⟩
    · rw [hshift]
      exact h.before (j + 1) (by omega)
    · rw [hshift]
      exact h.nothing
    · rw [hshift]
      exact h.goesOn

theorem Unbroken.next {i len : Nat} (h : Unbroken results type i len)
    (hdata : (results i streamBufferMin).1 ≠ []) :
    Unbroken results type (i + 1) (len + (results i streamBufferMin).1.length) :=
  fun k hbreaks => h (k + 1) ((BreaksAt.next hdata).mp hbreaks)

/-- A call that delivers nothing ends an unbroken top-up. -/
theorem Unbroken.ends {len : Nat} (h : Unbroken results s.type s.priv.calls len)
    (hlt : len < streamBufferMin) (hdata : (results s.priv.calls streamBufferMin).1 = []) :
    EndsAt results s streamBufferMin := by
  cases hflag : (results s.priv.calls streamBufferMin).2 with
  | true => exact Or.inr (Or.inl hflag)
  | false =>
    refine Or.inr (Or.inr (Decidable.byContradiction fun hnav => h 0 ?_))
    exact ⟨fun _ hj => absurd hj (Nat.not_lt_zero _), hlt, hdata, hflag, hnav⟩

/-- What a call delivers goes behind what is held. -/
theorem Holding.deliver (h : Holding type log pos d s) (data : List UInt8) :
    Holding type log pos (d ++ data) { s.deliver data with
      buffer := blit s.buffer s.bufLen data, bufLen := s.bufLen + data.length } where
  endless := ⟨h.endless.type_eq, h.endless.endPos_eq⟩
  log := by
    show s.priv.log ++ data = log ++ (d ++ data)
    rw [h.log, List.append_assoc]
  bufPos := h.bufPos
  bufLen := by
    show s.bufLen + data.length = (d ++ data).length
    rw [h.bufLen, List.length_append]
  buffer := by
    have hcells := h.buffer.blit_concat data
    rw [Nat.zero_add, ← h.bufLen] at hcells
    exact hcells
  pos := by
    show s.pos + data.length = pos + (d ++ data).length
    rw [h.pos, List.length_append]
    omega

theorem Holding.starve (h : Holding type log pos d s) :
    Holding type log pos d { s.starve with buffer := blit s.buffer s.bufLen [] } where
  endless := ⟨h.endless.type_eq, h.endless.endPos_eq⟩
  log := (List.append_nil _).trans h.log
  bufPos := h.bufPos
  bufLen := h.bufLen
  buffer := by
    rw [blit_nil]
    exact h.buffer
  pos := h.pos

/-- A top-up that is not broken keeps everything. -/
theorem ResultsBackend.topUp (B : ResultsBackend ops type results) :
    ∀ (k : Nat) {s : Stream Source} {d : List UInt8}, streamBufferMin - d.length ≤ k →
      Holding type log pos d s → Unbroken results type s.priv.calls d.length →
      ∃ s' d', Holding type log pos (d ++ d') s' ∧
        ∀ fuel, k + 2 ≤ fuel → streamTopUp ops fuel s = some s'
  | k, s, d, hk, h, hunbroken => by
    by_cases hlt : s.bufLen < streamBufferMin
    · have hlt' := hlt
      rw [h.bufLen] at hlt'
      by_cases hdata : (results s.priv.calls streamBufferMin).1 = []
      · have hends : EndsAt results s streamBufferMin :=
          Unbroken.ends (h.endless.type_eq.symm ▸ hunbroken) hlt' hdata
        refine ⟨_, [], (List.append_nil d).symm ▸ h.starve, fun fuel hfuel => ?_⟩
        obtain ⟨fuel, rfl⟩ : ∃ n, fuel = n + 2 := ⟨fuel - 2, by omega⟩
        rw [streamTopUp, if_pos hlt, B.readInternal_ends _ h.endless.type_eq hdata hends]
        rfl
      · have hpos : 0 < (results s.priv.calls streamBufferMin).1.length :=
          List.length_pos_iff.mpr hdata
        have hnext := hunbroken.next hdata
        obtain ⟨k, rfl⟩ : ∃ n, k = n + 1 := ⟨k - 1, by omega⟩
        have hdeliver := h.deliver (results s.priv.calls streamBufferMin).1
        rw [← List.length_append] at hnext
        obtain ⟨s', d', hs', hfuel'⟩ := B.topUp k (by rw [List.length_append]; omega) hdeliver
          hnext
        refine ⟨s', _, List.append_assoc d _ _ ▸ hs', fun fuel hfuel => ?_⟩
        obtain ⟨fuel, rfl⟩ : ∃ n, fuel = n + 2 := ⟨fuel - 2, by omega⟩
        rw [streamTopUp, if_pos hlt, B.readInternal_delivers _ h.endless.type_eq hdata]
        exact (if_neg hdata).trans (hfuel' (fuel + 1) (by omega))
    · refine ⟨s, [], (List.append_nil d).symm ▸ h, fun fuel hfuel => ?_⟩
      obtain ⟨fuel, rfl⟩ : ∃ n, fuel = n + 1 := ⟨fuel - 1, by omega⟩
      rw [streamTopUp, if_neg hlt]

/-- The source has delivered more since its log was `log` than the buffer holds. -/
structure Lossy (type : StreamType) (log : List UInt8) (s : Stream Source) : Prop where
  endless : Endless type s
  log : ∃ d, s.priv.log = log ++ d ∧ s.bufLen < d.length

/-- What is lost stays lost. -/
theorem Lossy.read {log : List UInt8} {s s' : Stream Source} (h : Lossy type log s) {n : Nat}
    {data : List UInt8} (hread : ReadsTo results s n data s') (buffer : Nat → UInt8) :
    Lossy type log { s' with buffer := buffer, bufLen := s'.bufLen + data.length } := by
  obtain ⟨d, hlog, hlen⟩ := h.log
  have hendless : Endless type s := h.endless
  cases hread with
  | delivers hdata =>
    refine ⟨⟨hendless.type_eq, hendless.endPos_eq⟩, d ++ (results s.priv.calls n).1, ?_, ?_⟩
    · show s.priv.log ++ _ = _
      rw [hlog, List.append_assoc]
    · show s.bufLen + _ < _
      rw [List.length_append]
      omega
  | ends hdata hends =>
    exact ⟨⟨hendless.type_eq, hendless.endPos_eq⟩, d, (List.append_nil _).trans hlog, hlen⟩
  | resumes hdata hends hdata' =>
    refine ⟨⟨hendless.type_eq, hendless.endPos_eq⟩, d ++ (results (s.priv.calls + 1) n).1, ?_, ?_⟩
    · show s.priv.log ++ [] ++ _ = _
      rw [List.append_nil, hlog, List.append_assoc]
    · show 0 + _ < _
      rw [List.length_append]
      omega
  | fails hdata hends hdata' =>
    refine ⟨⟨hendless.type_eq, hendless.endPos_eq⟩, d, ?_, Nat.lt_of_le_of_lt (Nat.zero_le _) hlen⟩
    show s.priv.log ++ [] ++ [] = _
    rw [List.append_nil, List.append_nil, hlog]

theorem Lossy.topUp (B : ResultsBackend ops type results) :
    ∀ {fuel : Nat} {s s' : Stream Source}, Lossy type log s →
      streamTopUp ops fuel s = some s' → Lossy type log s'
  | 0, _, _, _, hs' => by cases hs'
  | fuel + 1, s, s', h, hs' => by
    rw [streamTopUp] at hs'
    split at hs'
    · obtain ⟨⟨data, s1⟩, hread, hrest⟩ := Option.bind_eq_some_iff.mp hs'
      have hlossy := h.read (ReadsTo.of_some B h.endless hread) (blit s1.buffer s.bufLen data)
      dsimp only at hrest
      split at hrest
      next hdata =>
        cases hrest
        rw [hdata] at hlossy ⊢
        exact hlossy
      next hdata => exact Lossy.topUp B hlossy hrest
    · cases hs'
      exact h

/-- A call that breaks the top-up loses what is held. -/
theorem Holding.lossy (h : Holding type log pos d s) (hne : d ≠ []) (heof : s.eof = false)
    {len : Nat} (hbreaks : BreaksAt results type s.priv.calls len 0)
    (hread : ReadsTo results s streamBufferMin data s') (buffer : Nat → UInt8) :
    Lossy type log { s' with buffer := buffer, bufLen := s'.bufLen + data.length } := by
  have hendless := h.endless
  have hlen : 0 < d.length := List.length_pos_iff.mpr hne
  cases hread with
  | delivers hdata => exact absurd hbreaks.nothing hdata
  | ends hdata hends =>
    rcases hends with hends | hends | hends
    · rw [heof] at hends
      cases hends
    · exact absurd (hbreaks.goesOn.symm.trans hends) Bool.false_ne_true
    · exact absurd (hendless.type_eq.symm.trans hends) hbreaks.not_dvdnav
  | resumes hdata hends hdata' =>
    refine ⟨⟨hendless.type_eq, hendless.endPos_eq⟩,
      d ++ (results (s.priv.calls + 1) streamBufferMin).1, ?_, ?_⟩
    · show s.priv.log ++ [] ++ _ = _
      rw [List.append_nil, h.log, List.append_assoc]
    · show 0 + _ < _
      rw [List.length_append]
      omega
  | fails hdata hends hdata' =>
    refine ⟨⟨hendless.type_eq, hendless.endPos_eq⟩, d, ?_, hlen⟩
    show s.priv.log ++ [] ++ [] = _
    rw [List.append_nil, List.append_nil, h.log]

/-- A top-up that is broken loses bytes. -/
theorem ResultsBackend.topUp_breaks (B : ResultsBackend ops type results) :
    ∀ {k fuel : Nat} {s s' : Stream Source} {d : List UInt8},
      Holding type log pos d s → d ≠ [] → s.eof = false →
      BreaksAt results type s.priv.calls d.length k → streamTopUp ops fuel s = some s' →
      Lossy type log s'
  | _, 0, _, _, _, _, _, _, _, hs' => by cases hs'
  | k, fuel + 1, s, s', d, h, hne, heof, hbreaks, hs' => by
    have hlt : s.bufLen < streamBufferMin := by
      have hfew := hbreaks.few
      rw [h.bufLen]
      omega
    rw [streamTopUp, if_pos hlt] at hs'
    obtain ⟨⟨data, s1⟩, hread, hrest⟩ := Option.bind_eq_some_iff.mp hs'
    have hreads := ReadsTo.of_some B h.endless hread
    dsimp only at hrest
    cases k with
    | zero =>
      have hlossy := h.lossy hne heof hbreaks hreads (blit s1.buffer s.bufLen data)
      split at hrest
      next hdata =>
        cases hrest
        rw [hdata] at hlossy ⊢
        exact hlossy
      next hdata => exact hlossy.topUp B hrest
    | succ k =>
      have hdata : (results s.priv.calls streamBufferMin).1 ≠ [] :=
        hbreaks.before 0 (Nat.succ_pos k)
      cases hreads with
      | delivers =>
        rw [if_neg hdata] at hrest
        have hnext := (BreaksAt.next hdata).mpr hbreaks
        rw [← List.length_append] at hnext
        refine B.topUp_breaks (h.deliver _) ?_ rfl hnext hrest
        exact fun hnil => hne (List.append_eq_nil_iff.mp hnil).1
      | ends hnil => exact absurd hnil hdata
      | resumes hnil => exact absurd hnil hdata
      | fails hnil => exact absurd hnil hdata

/-! ## `stream_fill_buffer` -/

/-- The call that delivers the first bytes of a refill, if one does. -/
def firstDelivery (results : Results) (s : Stream Source) : Option Nat :=
  let i := s.priv.calls
  if (results i streamBufferSize).1 ≠ [] then some i
  else if s.eof || (results i streamBufferSize).2 || s.type = .dvdnav then none
  else if (results (i + 1) streamBufferSize).1 ≠ [] then some (i + 1)
  else none

/-- A refill returns, and if the source delivered some bytes then it keeps them all. -/
def FillKeeps (ops : StreamOps Source) (s : Stream Source) : Prop :=
  ∃ n s', Returns (fun fuel => streamFillBuffer ops fuel s) (n, s') ∧
    ∀ d, s'.priv.log = s.priv.log ++ d → d ≠ [] →
      n = d.length ∧ (List.range n).map s'.buffer = d ∧ s'.bufPos = 0 ∧ s'.bufLen = n ∧
        s'.pos = s.pos + n

theorem endsAt_iff (s : Stream Source) (n : Nat) : EndsAt results s n ↔
    (s.eof || (results s.priv.calls n).2 || s.type = .dvdnav) = true := by
  rw [EndsAt, Bool.or_eq_true, Bool.or_eq_true, decide_eq_true_eq, or_assoc]

theorem ReadsTo.total (results : Results) (s : Stream Source) (n : Nat) :
    ∃ data s', ReadsTo results s n data s' := by
  by_cases hdata : (results s.priv.calls n).1 = []
  · by_cases hends : EndsAt results s n
    · exact ⟨_, _, .ends hdata hends⟩
    · by_cases hdata' : (results (s.priv.calls + 1) n).1 = []
      · exact ⟨_, _, .fails hdata hends hdata'⟩
      · exact ⟨_, _, .resumes hdata hends hdata'⟩
  · exact ⟨_, _, .delivers hdata⟩

/-- A refill that gets nothing. -/
theorem ReadsTo.nothing (h : ReadsTo results s streamBufferSize [] s') :
    firstDelivery results s = none ∧ s'.priv.log = s.priv.log := by
  generalize hnil : ([] : List UInt8) = data at h
  rw [firstDelivery]
  cases h with
  | delivers hdata => exact absurd hnil.symm hdata
  | ends hdata hends =>
    rw [if_neg (not_not.mpr hdata), if_pos ((endsAt_iff s _).mp hends)]
    exact ⟨rfl, List.append_nil _⟩
  | resumes hdata hends hdata' => exact absurd hnil.symm hdata'
  | fails hdata hends hdata' =>
    rw [if_neg (not_not.mpr hdata), if_neg fun h => hends ((endsAt_iff s _).mpr h),
      if_neg (not_not.mpr hdata')]
    refine ⟨rfl, ?_⟩
    show s.priv.log ++ [] ++ [] = _
    rw [List.append_nil, List.append_nil]

/-- A refill that gets something. -/
theorem ReadsTo.something (h : ReadsTo results s streamBufferSize data s')
    (hendless : Endless type s) (hne : data ≠ []) : ∃ i, firstDelivery results s = some i ∧
      data = (results i streamBufferSize).1 ∧ s'.priv.calls = i + 1 ∧ s'.eof = false ∧
      Holding type s.priv.log s.pos data { s' with
        buffer := blit s'.buffer 0 data, bufPos := 0, bufLen := data.length } := by
  have hcells (buffer : Nat → UInt8) : Mirrors (blit buffer 0 data) 0 data 0 data.length :=
    (Mirrors.zero buffer 0 [] 0).blit_concat data
  rw [firstDelivery]
  cases h with
  | delivers hdata =>
    rw [if_pos hdata]
    exact ⟨_, rfl, rfl, rfl, rfl, ⟨hendless.type_eq, hendless.endPos_eq⟩, rfl, rfl, rfl,
      hcells _, rfl⟩
  | ends => exact absurd rfl hne
  | resumes hdata hends hdata' =>
    rw [if_neg (not_not.mpr hdata), if_neg fun h => hends ((endsAt_iff s _).mpr h), if_pos hdata']
    refine ⟨_, rfl, rfl, rfl, rfl, ⟨hendless.type_eq, hendless.endPos_eq⟩, ?_, rfl, rfl,
      hcells _, rfl⟩
    show s.priv.log ++ [] ++ _ = _
    rw [List.append_nil]
  | fails => exact absurd rfl hne

theorem ReadsTo.fill (B : ResultsBackend ops type results) (h : Endless type s)
    (hread : ReadsTo results s streamBufferSize data s') (fuel : Nat) :
    streamFillBuffer ops (fuel + 2) s =
      if data = [] then some (0, { s' with buffer := blit s'.buffer 0 data })
      else (streamTopUp ops (fuel + 2) { s' with
        buffer := blit s'.buffer 0 data, bufPos := 0, bufLen := data.length }).bind fun s =>
          some (s.bufLen, { s with eof := false }) := by
  rw [streamFillBuffer, hread.returns B h]
  rfl

theorem ReadsTo.fill_topUp (B : ResultsBackend ops type results) (h : Endless type s)
    (hread : ReadsTo results s streamBufferSize data s') (hdata : data ≠ []) (fuel : Nat) :
    streamFillBuffer ops (fuel + 2) s =
      (streamTopUp ops (fuel + 2) { s' with
        buffer := blit s'.buffer 0 data, bufPos := 0, bufLen := data.length }).bind fun s =>
          some (s.bufLen, { s with eof := false }) :=
  (hread.fill B h fuel).trans (if_neg hdata)

/-- A refill that keeps everything is not broken. -/
theorem FillKeeps.unbroken (B : ResultsBackend ops type results) (h : Endless type s)
    (hfill : FillKeeps ops s) {i : Nat} (hi : firstDelivery results s = some i) :
    Unbroken results type (i + 1) (results i streamBufferSize).1.length := by
  obtain ⟨n, s', ⟨m, hm⟩, hkeeps⟩ := hfill
  obtain ⟨data, s1, hread⟩ := ReadsTo.total results s streamBufferSize
  have hdata : data ≠ [] := by
    rintro rfl
    rw [hread.nothing.1] at hi
    cases hi
  obtain ⟨j, hj, heq, hcalls, heof, hholding⟩ := hread.something h hdata
  cases Option.some.inj (hi.symm.trans hj)
  intro k hbreaks
  rw [← hcalls, ← heq] at hbreaks
  have hs' : streamFillBuffer ops (m + 2) s = some (n, s') := hm (m + 2) (Nat.le_add_right m 2)
  rw [hread.fill_topUp B h hdata] at hs'
  obtain ⟨s2, htop, hs2⟩ := Option.bind_eq_some_iff.mp hs'
  cases hs2
  obtain ⟨d, hlog, hlen⟩ := (B.topUp_breaks hholding hdata heof hbreaks htop).log
  have hne : d ≠ [] := by
    rintro rfl
    exact absurd hlen (Nat.not_lt_zero _)
  have hkept := (hkeeps d hlog hne).1
  omega

/-- A refill that is not broken keeps everything. -/
theorem Unbroken.fillKeeps (B : ResultsBackend ops type results) {s : Stream Source}
    (h : Endless type s) (hall : ∀ i, firstDelivery results s = some i →
      Unbroken results type (i + 1) (results i streamBufferSize).1.length) : FillKeeps ops s := by
  obtain ⟨data, s1, hread⟩ := ReadsTo.total results s streamBufferSize
  by_cases hdata : data = []
  · subst hdata
    have hlog := hread.nothing.2
    refine ⟨0, { s1 with buffer := blit s1.buffer 0 [] }, ⟨2, fun m hm => ?_⟩, fun d hd hne => ?_⟩
    · obtain ⟨m, rfl⟩ : ∃ n, m = n + 2 := ⟨m - 2, by omega⟩
      exact hread.fill B h m
    · rw [hlog] at hd
      exact absurd (List.self_eq_append_right.mp hd) hne
  · obtain ⟨i, hfirst, heq, hcalls, -, hholding⟩ := hread.something h hdata
    have hunbroken := hall i hfirst
    rw [← hcalls, ← heq] at hunbroken
    obtain ⟨s', d', hs', htop⟩ := B.topUp streamBufferMin (Nat.sub_le _ _) hholding hunbroken
    refine ⟨s'.bufLen, { s' with eof := false }, ⟨streamBufferMin + 2, fun m hm => ?_⟩,
      fun d hd hne => ?_⟩
    · obtain ⟨m, rfl⟩ : ∃ n, m = n + 2 := ⟨m - 2, by omega⟩
      show streamFillBuffer ops (m + 2) s = _
      rw [hread.fill_topUp B h hdata, htop (m + 2) hm]
      rfl
    · have heqd : data ++ d' = d := List.append_cancel_left (hs'.log.symm.trans hd)
      rw [heqd] at hs'
      have hslice := hs'.buffer.slice (k := 0) (x := d.length) (Nat.le_of_eq (Nat.zero_add _))
      refine ⟨hs'.bufLen, ?_, hs'.bufPos, rfl, ?_⟩
      · rw [hs'.bufLen]
        simpa using hslice
      · show s'.pos = s.pos + (s'.bufLen : Int)
        rw [hs'.pos, hs'.bufLen]

/-- A refill keeps what the source delivered if no call breaks it, and only then. -/
theorem fill_buffer_keeps_iff (B : ResultsBackend ops type results) {s : Stream Source}
    (h : Endless type s) :
    FillKeeps ops s ↔ ∀ i, firstDelivery results s = some i →
      Unbroken results type (i + 1) (results i streamBufferSize).1.length :=
  ⟨fun hfill _ hi => hfill.unbroken B h hi, Unbroken.fillKeeps B h⟩

/-! ## Two sources -/

/-- The results that a list gives, and then nothing. -/
def scripted (script : List (List UInt8 × Bool)) (i n : Nat) : List UInt8 × Bool :=
  let r := script.getD i ([], false)
  (r.1.take n, r.2)

/-- The callbacks of a source with these results. -/
def sourceOps (results : Results) : StreamOps Source where
  configNetworking := false
  fillBuffer := some fun s n => ((results s.priv.calls n).1, { s with
    eof := s.eof || (results s.priv.calls n).2, priv := s.priv.next (results s.priv.calls n).1 })
  readFd := fun s _ => ([], s)
  demuxReadData := fun s _ => ([], s)
  seek := some fun s _ => (true, s)
  controlReset := none
  streamingRead := none
  streamingStopped := fun _ => false
  streamingSeek := none

theorem sourceOps_backend (script : List (List UInt8 × Bool)) :
    ResultsBackend (sourceOps (scripted script)) .file (scripted script) where
  read := by
    intro s n h
    cases s
    cases h
    rfl
  fits := fun _ _ => List.length_take_le _ _
  seek := by
    intro s h
    refine ⟨s.eof, ?_⟩
    cases s
    cases h
    rw [streamSeekInternal]
    split
    · rfl
    · rfl
  reset := fun _ => rfl

/-- A stream on a source that has done nothing yet. -/
def sourceStream : Stream Source :=
  { fileStream with priv := ⟨0, []⟩ }

/-- A source that tells its end when it has nothing more. -/
def endingScript : List (List UInt8 × Bool) := [([1, 2, 3], false), ([4], false), ([], true)]

/-- A refill from it keeps all that it delivers. -/
theorem fill_buffer_keeps_iff_ending :
    FillKeeps (sourceOps (scripted endingScript)) sourceStream := by
  refine (fill_buffer_keeps_iff (sourceOps_backend endingScript) ⟨rfl, rfl⟩).mpr fun i hi => ?_
  cases hi
  intro k hbreaks
  match k with
  | 0 => exact absurd hbreaks.nothing (by decide)
  | 1 => exact absurd hbreaks.goesOn (by decide)
  | k + 2 => exact absurd rfl (hbreaks.before 1 (by omega))

/-- A source that fails after three bytes, and does not tell that it has ended. -/
def failingScript : List (List UInt8 × Bool) := [([1, 2, 3], false)]

/-- A refill from it forgets the bytes. -/
theorem fill_buffer_forgets : ¬FillKeeps (sourceOps (scripted failingScript)) sourceStream := by
  intro hfill
  refine hfill.unbroken (sourceOps_backend failingScript) (i := 0) ⟨rfl, rfl⟩ rfl 0 ?_
  exact ⟨fun _ hj => absurd hj (Nat.not_lt_zero _), by decide, rfl, rfl, by decide⟩

end MPlayer
