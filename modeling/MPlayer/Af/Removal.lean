import MPlayer.Af.AllOrNothing

/-!
# What goes wrong when a filter is added

If the first attempt comes to a filter that is stuck, `af_add` does not return.  If it removes the
new filter, this is not noticed, and nothing puts it back: the pointer that is returned or looked
for in the roll-back is one to freed memory (`fine_of_adds`).
-/

namespace MPlayer.Af

open Lib

namespace Addition

variable {a : Addition}

/-! ## The new filter is removed once -/

/-- The number of filters with an address. -/
def count (n : Nat) (fs : List AfInstance) : Nat := (fs.map AfInstance.id).count n

theorem count_append (n : Nat) (fs gs : List AfInstance) :
    count n (fs ++ gs) = count n fs + count n gs := by
  simp [count]

theorem count_cons (n : Nat) (f : AfInstance) (fs : List AfInstance) :
    count n (f :: fs) = count n fs + if f.id = n then 1 else 0 := by
  simp [count, List.count_cons]

theorem count_chain (n : Nat) (p : Pass) : count n p.chain = count n p.before + count n p.rest := by
  rw [Pass.chain, count_append, count, List.map_reverse, List.count_reverse, ← count]

variable {n k : Nat} {p : Pass} {retry : Bool} {call : Call} {output : AfData} {t st : AddState}
  {result : Added}

theorem count_eq_zero {fs : List AfInstance} : count n fs = 0 ↔ ∀ f ∈ fs, f.id ≠ n := by
  simp [count, List.count_eq_zero]

/-- There are at most `k` filters with the address `n`, which is not a fresh one. -/
structure Counted (n k : Nat) (p : Pass) : Prop where
  count_le : count n p.chain ≤ k
  lt_fresh : n < p.fresh

theorem Counted.edited {q : Pass} (hp : Counted n k p) (h : Edited p q) : Counted n k q := by
  obtain ⟨hcount, hlt⟩ := hp
  cases h with
  | same hchain hfresh => exact ⟨by rwa [hchain], by rwa [hfresh]⟩
  | last hlast hchain hid hfresh =>
    refine ⟨?_, by rwa [hfresh]⟩
    obtain ⟨init, hinit⟩ := List.getLast?_eq_some_iff.mp hlast
    rw [hinit, count_append, count_cons] at hcount
    rw [hchain, hinit, List.dropLast_concat, count_append, count_cons, hid]
    exact hcount
  | inserted hp hchain hid hfresh =>
    refine ⟨?_, by omega⟩
    rw [hp, count_append] at hcount
    rw [hchain, count_append, count_cons, if_neg (by omega)]
    exact hcount

/-- The filter `dummy` has a fresh address. -/
theorem Counted.appendDummy (hp : Counted n k p) : Counted n k p.appendDummy := by
  obtain ⟨hcount, hlt⟩ := hp
  refine ⟨?_, Nat.lt_succ_of_lt hlt⟩
  have hdummy : (Pass.dummy p.fresh).id ≠ n := Nat.ne_of_gt hlt
  have hbefore : count n p.before =
      count n p.before.dropLast + count n p.before.getLast?.toList := by
    rcases List.eq_nil_or_concat' p.before with h | ⟨init, last, h⟩
    · rw [h]
      rfl
    · rw [h, List.dropLast_concat, List.getLast?_concat, count_append]
      rfl
  rw [count_chain] at hcount
  rw [count_chain, Pass.appendDummy, count_append, count_cons, if_neg hdummy]
  dsimp only
  omega

/-- A turn counts no further filter with the address. -/
theorem Counted.turned {f : AfInstance} {fs : List AfInstance} {t : Pass.Turn}
    (hp : Counted n k p) (hrest : p.rest = f :: fs) (ht : Pass.Turned p f fs t) :
    Counted n k (Pass.reached t) := by
  obtain ⟨hcount, hlt⟩ := hp
  have hchain := count_chain n p
  rw [hrest, count_cons] at hchain
  have hprepend : ∀ g : AfInstance, g.id = p.fresh → Counted n k (p.prepend g) := by
    intro g hg
    refine ⟨?_, Nat.lt_succ_of_lt hlt⟩
    rw [count_chain, Pass.prepend, hrest, count_cons, count_cons, if_neg (by omega)]
    omega
  cases ht with
  | ok data _ =>
    rw [Pass.again_reached]
    refine ⟨?_, hlt⟩
    rw [count_chain, count_cons]
    dsimp only
    omega
  | removed _ =>
    rw [Pass.again_reached]
    refine ⟨?_, hlt⟩
    rw [count_chain]
    dsimp only
    omega
  | failed _ _ hq =>
    rcases hq with rfl | ⟨g, hid, rfl⟩
    · exact ⟨hcount, hlt⟩
    · exact hprepend g hid
  | stays _ => exact ⟨hcount, hlt⟩
  | inserted g _ _ hid => exact hprepend g hid

/-- The invariant of the first attempt. -/
def CountedState (n k : Nat) : AddState → Prop
  | .reinit false _ p _ => Counted n k p
  | .reinit true _ _ _ => k ≠ 0
  | .rollBack p _ => Counted n k p

theorem behind_eq_none {fs : List AfInstance} (h : ∀ f ∈ fs, f.id ≠ a.new) :
    a.behind fs = none := by
  induction fs with
  | nil => rfl
  | cons f fs ih =>
    rw [← ih fun g hg => h g (.tail f hg)]
    simp [behind, h f (.head fs)]

/-- Without the new filter, the roll-back runs into the end of the chain. -/
theorem removeNew_eq_none {fs : List AfInstance} (h : ∀ f ∈ fs, f.id ≠ a.new) :
    a.removeNew fs = none := by
  unfold removeNew
  split
  · cases fs with
    | nil => rfl
    | cons f fs =>
      change (a.behind fs).map _ = none
      rw [behind_eq_none fun g hg => h g (.tail f hg)]
      rfl
  · exact behind_eq_none h

theorem CountedState.after {rv : Int} (hretry : retry = true → k ≠ 0)
    (hp : retry = false → Counted a.new k p) (h : a.after retry call rv p output = .next t) :
    CountedState a.new k t := by
  obtain ⟨q, output', hq, -, ⟨call', rfl, -⟩ | ⟨rfl, rfl⟩⟩ := follows_after h
  · cases retry with
    | true => exact hretry rfl
    | false => exact (hp rfl).edited hq
  · exact (hp rfl).edited hq

theorem Counted.turn (hp : Counted n k p) : Counted n k (Pass.reached p.turn) := by
  cases hrest : p.rest with
  | nil =>
    have hdone : p.turn = .done (-2, p.appendDummy) := by rw [Pass.turn, hrest]
    rw [hdone]
    exact hp.appendDummy
  | cons f fs => exact hp.turned hrest (Pass.turn_turned hrest)

theorem CountedState.next {k : Nat} {st t : AddState} (hst : CountedState a.new k st)
    (hturn : a.turn st = .next t) : CountedState a.new k t := by
  cases st with
  | rollBack p output =>
    rw [turn] at hturn
    cases hremove : a.removeNew p.chain with
    | none =>
      rw [hremove] at hturn
      cases hturn
    | some chain =>
      rw [hremove] at hturn
      cases hturn
      rintro rfl
      have hnone := removeNew_eq_none (count_eq_zero.mp (Nat.le_zero.mp hst.count_le))
      rw [hremove] at hnone
      cases hnone
  | reinit retry call p output =>
    rw [turn] at hturn
    cases retry with
    | true =>
      cases hpass : p.turn with
      | next q =>
        rw [hpass] at hturn
        cases hturn
        exact hst
      | done r =>
        rw [hpass] at hturn
        have hafter : a.after true call r.1 r.2 output = .next t := hturn
        exact .after (fun _ => hst) (fun h => (by cases h)) hafter
    | false =>
      have hcounted : Counted a.new k p := hst
      have hkeep := hcounted.turn
      cases hpass : p.turn with
      | next q =>
        rw [hpass] at hturn hkeep
        cases hturn
        exact hkeep
      | done r =>
        rw [hpass] at hturn hkeep
        have hafter : a.after false call r.1 r.2 output = .next t := hturn
        exact .after (fun h => (by cases h)) (fun _ => hkeep) hafter

theorem CountedState.reaches (hst : CountedState a.new k st) (h : Lib.Reaches a.turn st t) :
    CountedState a.new k t := by
  induction h with
  | refl => exact hst
  | tail _ hturn ih => exact ih.next hturn

/-- At the end of the first attempt the new filter has to be in the chain. -/
theorem gone_done {s : AfStream} {rv : Int} (hp : Counted a.new 0 p)
    (h : a.after false call rv p output = .done result) : ¬AllOrNothing s result := by
  rcases after_done h with (rfl | ⟨h, -⟩) | ⟨-, -, -, output', rfl, -⟩
  · exact id
  · cases h
  · rintro ⟨f, hf, hid⟩
    exact count_eq_zero.mp (Nat.le_zero.mp hp.count_le) f hf hid

/-- Without the new filter in the chain, the first attempt returns a pointer to no filter of the
chain, or uses the filter that was freed. -/
theorem gone_haltsWith {s : AfStream} (hst : CountedState a.new 0 st)
    (h : HaltsWith a.turn st result) : ¬AllOrNothing s result := by
  obtain ⟨n, hn⟩ := h
  induction n generalizing st with
  | zero => cases hn
  | succ n ih =>
    rw [Lib.turns] at hn
    cases hturn : a.turn st with
    | next t =>
      rw [hturn] at hn
      exact ih (hst.next hturn) hn
    | done r =>
      rw [hturn] at hn
      cases hn
      cases st with
      | rollBack p output =>
        rw [turn, removeNew_eq_none (count_eq_zero.mp (Nat.le_zero.mp hst.count_le))] at hturn
        cases hturn
        exact id
      | reinit retry call p output =>
        cases retry with
        | true => exact absurd rfl hst
        | false =>
          rw [turn] at hturn
          have hcounted : Counted a.new 0 p := hst
          have hkeep := hcounted.turn
          cases hpass : p.turn with
          | next q =>
            rw [hpass] at hturn
            cases hturn
          | done r =>
            rw [hpass] at hturn hkeep
            exact gone_done hkeep hturn

/-- What `af_reinit` is asked for ends, if `af_add` ends. -/
theorem halts_of_haltsWith (h : HaltsWith a.turn (.reinit retry call p output) result) :
    Halts Pass.turn p := by
  obtain ⟨n, hn⟩ := h
  induction n generalizing p with
  | zero => cases hn
  | succ n ih =>
    rw [Lib.turns, turn] at hn
    cases hturn : p.turn with
    | done r => exact .done hturn
    | next q =>
      rw [hturn] at hn
      exact (halts_next hturn).mpr (ih hn)

end Addition

namespace AfStream

variable {s : AfStream} {first new : AfInstance} {fs : List AfInstance}

theorem addFirst_counted (hchain : s.chain = first :: fs) :
    Addition.CountedState s.fresh 1 (s.addFirst first fs new) := by
  have hold : Addition.count s.fresh fs = 0 ∧ first.id ≠ s.fresh := by
    have hlt := s.fresh_lt
    rw [hchain] at hlt
    refine ⟨Addition.count_eq_zero.mpr fun f hf => ?_, ?_⟩
    · exact Nat.ne_of_lt (hlt f (.tail first hf))
    · exact Nat.ne_of_lt (hlt first (.head fs))
  have hnil : Addition.count s.fresh [] = 0 := rfl
  refine ⟨?_, Nat.lt_succ_self _⟩
  rw [Addition.count_chain]
  dsimp only
  split
  · simp [Addition.count_cons, hold.1, hold.2, hnil]
  · simp [Addition.count_cons, hold.1, hold.2, hnil]

variable {output : AfData}

/-- If `af_add` adds the filter or changes nothing, no filter was stuck in the first attempt, and
the new filter did not want to be removed. -/
theorem fine_of_adds (hchain : s.chain = first :: fs)
    (hok : ∃ result, s.Adds (some new) result ∧ AllOrNothing s result) {call : Call} {p : Pass}
    {output : AfData}
    (ht : Lib.Reaches (s.addition first).turn (s.addFirst first fs new)
      (.reinit false call p output)) : Fine s first fs (.reinit false call p output) := by
  obtain ⟨result, hadds, hresult⟩ := hok
  have hhalts := ht.haltsWith_iff.mp ((adds_some hchain result).mp hadds)
  have hfree := (Pass.halts_iff p).mp (Addition.halts_of_haltsWith hhalts)
  refine ⟨hfree, fun f gs hrest hid hdetach => ?_⟩
  have hcounted : Addition.Counted s.fresh 1 p :=
    Addition.CountedState.reaches (a := s.addition first) (addFirst_counted hchain) ht
  have hmode : p.mode ≠ .force := by
    intro hforce
    refine hfree p.current f (by rw [hrest]; exact .here) ?_
    rw [Stuck, if_pos hforce]
    exact hdetach
  have hgone : Addition.Counted s.fresh 0 { p with rest := gs } := by
    have hcount := hcounted.count_le
    rw [Addition.count_chain, hrest, Addition.count_cons, if_pos hid] at hcount
    refine ⟨?_, hcounted.lt_fresh⟩
    rw [Addition.count_chain]
    dsimp only
    omega
  have hturn := Pass.turn_detach hrest hdetach hmode
  cases hagain : Pass.again { p with rest := gs } with
  | next q =>
    obtain ⟨rfl, -⟩ := Pass.again_next hagain
    have hnext : (s.addition first).turn (.reinit false call p output) =
        .next (.reinit false call { p with rest := gs } output) := by
      rw [Addition.turn, hturn, hagain]
    have hst : Addition.CountedState (s.addition first).new 0
        (.reinit false call { p with rest := gs } output) := hgone
    exact Addition.gone_haltsWith hst ((haltsWith_next hnext).mp hhalts) hresult
  | done r =>
    obtain ⟨rv, q⟩ := r
    obtain ⟨rfl, -⟩ := Pass.again_done hagain
    have hafter : (s.addition first).turn (.reinit false call p output) =
        (s.addition first).after false call rv { p with rest := gs } output := by
      rw [Addition.turn, hturn, hagain]
    cases hlast : (s.addition first).after false call rv { p with rest := gs } output with
    | next t =>
      have ht := Addition.CountedState.after (k := 0) (fun h => (by cases h)) (fun _ => hgone)
        hlast
      exact Addition.gone_haltsWith ht ((haltsWith_next (hafter.trans hlast)).mp hhalts) hresult
    | done r =>
      cases (haltsWith_of_done (hafter.trans hlast)).mp hhalts
      exact Addition.gone_done hgone hlast hresult

/-! ## All or nothing -/

/-- Every state of the first attempt that `af_add` comes to is fine. -/
def CarefulFirst (s : AfStream) (created : Option AfInstance) : Prop :=
  ∀ first fs new, s.chain = first :: fs → created = some new → ∀ call p output,
    Lib.Reaches (s.addition first).turn (s.addFirst first fs new) (.reinit false call p output) →
      Fine s first fs (.reinit false call p output)

/-- If all states it comes to are fine, `af_add` adds the filter or changes nothing.  It does so
only if those of the first attempt are. -/
theorem adds_all_or_nothing {created : Option AfInstance} (hs : Working s) :
    (s.Careful created → ∃ result, s.Adds created result ∧ AllOrNothing s result) ∧
      ((∃ result, s.Adds created result ∧ AllOrNothing s result) → s.CarefulFirst created) := by
  refine ⟨adds_of_careful hs, fun hok first fs new hchain hcreated call p output ht => ?_⟩
  subst hcreated
  exact fine_of_adds hchain hok ht

/-! ## A chain of one filter -/

/-- Filters that ask for nothing are fine, if the first one does not want to be removed. -/
theorem fine_of_answers {first : AfInstance} {fs : List AfInstance} {call : Call} {p : Pass}
    (hmode : p.mode ≠ .force) (hp : ∀ f ∈ p.rest, ∀ d requested, f.reinit d ≠ .needs requested)
    (hfirst : ∀ f gs, p.rest = f :: gs → f.reinit p.current ≠ .detach) :
    Fine s first fs (.reinit false call p output) := by
  refine ⟨fun d f hreaches hstuck => ?_, fun f gs hrest _ => hfirst f gs hrest⟩
  rw [Stuck, if_neg hmode] at hstuck
  exact hstuck (.answered (hp f hreaches.mem d))

/-- Filters that answer `AF_OK` to everything are fine. -/
theorem fine_of_ok {first : AfInstance} {fs : List AfInstance} {call : Call} {p : Pass}
    (hmode : p.mode ≠ .force) (hp : ∀ f ∈ p.rest, ∀ d, f.reinit d = .ok d) :
    Fine s first fs (.reinit false call p output) := by
  refine fine_of_answers hmode (fun f hf d requested h => ?_) fun f gs hrest h => ?_
  · rw [hp f hf d] at h
    cases h
  · rw [hp f (by rw [hrest]; exact .head gs)] at h
    cases h

/-- Stereo, through the filter `dummy`. -/
def stereo : AfStream where
  input := ⟨48000, 2, 8, 2⟩
  output := ⟨48000, 2, 8, 2⟩
  mode := .fast
  chain := [{ Pass.dummy 0 with data := ⟨48000, 2, 8, 2⟩ }]
  fresh := 1
  fresh_lt := by simp [Pass.dummy]

theorem stereo_working : Working stereo where
  ne_nil := List.cons_ne_nil _ _
  settled := ⟨rfl, trivial⟩
  output := fun _ => ⟨_, rfl, rfl, rfl, rfl⟩

/-- A filter `channels` for two channels wants to be removed, and a pointer to it is returned. -/
theorem stereo_not_all_or_nothing :
    Working stereo ∧ ¬∃ result, stereo.Adds (some (channels 0 2)) result ∧
      AllOrNothing stereo result := by
  refine ⟨stereo_working, ?_⟩
  rintro ⟨result, hadds, hresult⟩
  have hhalts : stereo.Adds (some (channels 0 2)) (.returned (some 1) stereo.chain stereo.output) :=
    ⟨3, rfl⟩
  cases HaltsWith.unique hadds hhalts
  obtain ⟨f, hf, hid⟩ := hresult
  rw [List.mem_singleton.mp hf] at hid
  cases hid

theorem stereo_careful : stereo.Careful (some (Pass.dummy 0)) := by
  intro first fs new hchain hnew t ht
  cases hchain
  cases hnew
  have hfast : InitType.fast ≠ .force := by decide
  have hone : ∀ {f : AfInstance}, (∀ d, f.reinit d = .ok d) →
      ∀ g ∈ [f], ∀ d, g.reinit d = .ok d := fun hf => List.forall_mem_singleton.mpr hf
  have htwo : ∀ {f g : AfInstance}, (∀ d, f.reinit d = .ok d) → (∀ d, g.reinit d = .ok d) →
      ∀ h ∈ [f, g], ∀ d, h.reinit d = .ok d := fun hf hg =>
    List.forall_mem_cons.mpr ⟨hf, hone hg⟩
  -- two calls of `af_reinit`, each of which asks the two filters
  rcases ht.cases_head with rfl | ⟨t1, h1, ht⟩
  · exact fine_of_ok hfast (htwo (fun _ => rfl) fun _ => rfl)
  cases h1
  rcases ht.cases_head with rfl | ⟨t2, h2, ht⟩
  · exact fine_of_ok hfast (hone fun _ => rfl)
  cases h2
  rcases ht.cases_head with rfl | ⟨t3, h3, ht⟩
  · exact fine_of_ok hfast (htwo (fun _ => rfl) fun _ => rfl)
  cases h3
  rcases ht.cases_head with rfl | ⟨t4, h4, ht⟩
  · exact fine_of_ok hfast (hone fun _ => rfl)
  cases h4

/-- The filter `format` for AC3, which refuses everything else. -/
def ac3 : AfInstance := format 0 formatAc3 2

theorem ac3_answers (d requested : AfData) : ac3.reinit d ≠ .needs requested := by
  unfold ac3 format
  dsimp only
  repeat' split
  all_goals
    intro h
    cases h

theorem stereo_careful_ac3 : stereo.Careful (some ac3) := by
  intro first fs new hchain hnew t ht
  cases hchain
  cases hnew
  rcases ht.cases_head with rfl | ⟨t1, h1, ht⟩
  · refine fine_of_answers (show InitType.fast ≠ .force by decide) (List.forall_mem_cons.mpr
      ⟨ac3_answers, List.forall_mem_singleton.mpr fun _ _ h => by cases h⟩) fun f gs hrest => ?_
    cases hrest
    decide
  cases h1
  -- the roll-back finds the old filter behind the new one
  rcases ht.cases_head with rfl | ⟨t2, h2, ht⟩
  · refine ⟨fun ahead new behind hchain _ hahead => ?_, rfl, fun h => by cases h⟩
    cases ahead with
    | nil =>
      cases hchain
      exact .refl _ _ _
    | cons f ahead =>
      obtain ⟨rfl, -⟩ := List.cons.inj hchain
      exact absurd rfl (hahead _ (.head _))
  cases h2
  -- what follows is the second attempt
  rcases ht.cases_head with rfl | ⟨t3, h3, ht⟩
  · trivial
  cases h3
  rcases ht.cases_head with rfl | ⟨t4, h4, ht⟩
  · trivial
  cases h4

/-- `dummy` is added, and after the failure to add `format` the chain is the old one. -/
theorem stereo_adds :
    (∃ result, stereo.Adds (some (Pass.dummy 0)) result ∧ AllOrNothing stereo result) ∧
      stereo.Adds (some ac3) (.returned none stereo.chain stereo.output) ∧
      ∃ result, stereo.Adds (some ac3) result ∧ AllOrNothing stereo result :=
  ⟨(adds_all_or_nothing stereo_working).1 stereo_careful, ⟨5, rfl⟩,
    (adds_all_or_nothing stereo_working).1 stereo_careful_ac3⟩

end AfStream

end MPlayer.Af
