import Mathlib.Logic.Basic
import MPlayer.Af.Filters

/-!
# Reinitialization ends

The cursor of `af_reinit` stays at a filter that asks for another format, and passes the others.
So the pass is followed filter by filter: what a filter gets, what it gets after conversions, and
what the next filter gets (`Passes`).  A pass does not end if and only if it reaches a filter that
is stuck: one that wants to be removed while that is disabled, or one that asks for conversions
forever.
-/

namespace MPlayer.Af

open Lib

/-! ## One conversion -/

/-- The format that a filter gets instead of `d` after it asked for another one, unless a
conversion is refused. -/
def delivered (d requested : AfData) : Option AfData :=
  let answer :=
    if d.nch ≠ requested.nch then
      if requested.nch ≤ 0 ∨ 8 < requested.nch then .error
      else (channels 0 requested.nch).reinit d
    else if d.format ≠ requested.format then
      let fmt := requested.format ||| bits2fmt (requested.bps * 8)
      if !formatIsAc3 fmt && !checkFormat fmt then .error
      else (format 0 fmt ((fmt2bits fmt).tdiv 8)).reinit d
    else .error
  match answer with
  | .ok data => some data
  | _ => none

namespace Pass

variable {p : Pass}

theorem insert_cases (new : AfInstance) :
    (∃ data, new.reinit p.current = .ok data ∧
        p.insert new = .next (p.prepend { new with data := data })) ∨
      (∀ data, new.reinit p.current ≠ .ok data) ∧ ∃ r, p.insert new = .done r := by
  unfold insert
  cases hanswer : new.reinit p.current with
  | ok data => exact .inl ⟨data, rfl, rfl⟩
  | needs requested => exact .inr ⟨nofun, _, rfl⟩
  | detach => exact .inr ⟨nofun, _, rfl⟩
  | error => exact .inr ⟨nofun, _, rfl⟩

/-- A conversion delivers another format to the filter at the cursor, or ends the pass. -/
theorem convert_cases (p : Pass) (requested : AfData) :
    (∃ new d, delivered p.current requested = some d ∧
        p.convert requested = .next (p.prepend new) ∧ new.data = d) ∨
      delivered p.current requested = none ∧ ∃ r, p.convert requested = .done r := by
  have hinsert : ∀ new : AfInstance,
      (∃ new' d, (match new.reinit p.current with
          | .ok data => some data
          | _ => none) = some d ∧ p.insert new = .next (p.prepend new') ∧ new'.data = d) ∨
        (match new.reinit p.current with
          | .ok data => some data
          | _ => none) = none ∧ ∃ r, p.insert new = .done r := by
    intro new
    obtain ⟨data, hanswer, hnext⟩ | ⟨hanswer, hdone⟩ := p.insert_cases new
    · rw [hanswer]
      exact .inl ⟨_, data, rfl, hnext, rfl⟩
    · refine .inr ⟨?_, hdone⟩
      cases h : new.reinit p.current with
      | ok data => exact absurd h (hanswer data)
      | needs => rfl
      | detach => rfl
      | error => rfl
  unfold delivered convert
  dsimp only
  by_cases hnch : p.current.nch ≠ requested.nch
  · rw [if_pos hnch, if_pos hnch]
    by_cases hrange : requested.nch ≤ 0 ∨ 8 < requested.nch
    · rw [if_pos hrange, if_pos hrange]
      exact .inr ⟨rfl, _, rfl⟩
    · rw [if_neg hrange, if_neg hrange]
      exact hinsert (channels p.fresh requested.nch)
  · rw [if_neg hnch, if_neg hnch]
    by_cases hformat : p.current.format ≠ requested.format
    · rw [if_pos hformat, if_pos hformat]
      by_cases hcheck : (!formatIsAc3 (requested.format ||| bits2fmt (requested.bps * 8)) &&
          !checkFormat (requested.format ||| bits2fmt (requested.bps * 8))) = true
      · rw [if_pos hcheck, if_pos hcheck]
        exact .inr ⟨rfl, _, rfl⟩
      · rw [if_neg hcheck, if_neg hcheck]
        exact hinsert (format p.fresh _ _)
    · rw [if_neg hformat, if_neg hformat]
      exact .inr ⟨rfl, _, rfl⟩

end Pass

/-! ## The way of a pass -/

/-- Asked for the format `d` and then for what conversions deliver, a filter at some time does not
ask for another conversion, or the conversion is refused. -/
inductive Settles (f : AfInstance) : AfData → Prop where
  | answered {d : AfData} (h : ∀ requested, f.reinit d ≠ .needs requested) : Settles f d
  | refused {d requested : AfData} (h : f.reinit d = .needs requested)
      (hrefused : delivered d requested = none) : Settles f d
  | converted {d requested d' : AfData} (h : f.reinit d = .needs requested)
      (hdelivered : delivered d requested = some d') (hnext : Settles f d') : Settles f d

/-- A filter that gets `d` is done, and the next filter gets `d'`. -/
inductive Passes (mode : InitType) (f : AfInstance) : AfData → AfData → Prop where
  | ok {d data : AfData} (h : f.reinit d = .ok data) : Passes mode f d data
  | detach {d : AfData} (hmode : mode ≠ .force) (h : f.reinit d = .detach) : Passes mode f d d
  | converted {d requested d' d'' : AfData} (hmode : mode ≠ .force)
      (h : f.reinit d = .needs requested) (hdelivered : delivered d requested = some d')
      (hnext : Passes mode f d' d'') : Passes mode f d d''

/-- From the filters `fs`, of which the first one gets `d`, a pass comes to a filter that
gets `e`. -/
inductive Reaches (mode : InitType) : AfData → List AfInstance → AfData → AfInstance → Prop where
  | here {d : AfData} {f : AfInstance} {fs : List AfInstance} : Reaches mode d (f :: fs) d f
  | behind {d d' e : AfData} {f g : AfInstance} {fs : List AfInstance} (h : Passes mode f d d')
      (hnext : Reaches mode d' fs e g) : Reaches mode d (f :: fs) e g

/-- With automatic insertion and removal disabled a filter that gets `d` wants to be removed, or
otherwise it asks for conversions forever. -/
def Stuck (mode : InitType) (d : AfData) (f : AfInstance) : Prop :=
  if mode = .force then f.reinit d = .detach else ¬Settles f d

/-- A filter that asks for a format answers `AF_OK` when it gets it. -/
def AfInstance.AcceptsRequested (f : AfInstance) : Prop :=
  ∀ d requested, f.reinit d = .needs requested → ∃ data, f.reinit requested = .ok data

namespace Pass

variable {p q : Pass}

variable {f : AfInstance} {fs : List AfInstance}

theorem again_cons (hrest : p.rest = f :: fs) : p.again = .next p := by
  rw [again, if_neg (by rw [hrest]; exact List.cons_ne_nil f fs)]

theorem halts_again (h : p.turn = q.again) : Halts turn p ↔ Halts turn q := by
  cases hrest : q.rest with
  | nil =>
    have hdone : q.turn = .done (-2, q.appendDummy) := by rw [turn, hrest]
    rw [again, if_pos hrest] at h
    exact ⟨fun _ => .done hdone, fun _ => .done h⟩
  | cons f fs =>
    rw [again_cons hrest] at h
    exact halts_next h

/-- A filter that is stuck stays stuck. -/
def AtStuck (p : Pass) : Prop := ∃ f fs, p.rest = f :: fs ∧ Stuck p.mode p.current f

theorem AtStuck.next (h : p.AtStuck) : ∃ q, p.turn = .next q ∧ q.AtStuck := by
  obtain ⟨f, fs, hrest, hstuck⟩ := h
  have hs := hstuck
  unfold Stuck at hs
  unfold turn
  rw [hrest]
  dsimp only
  split at hs
  · next hforce =>
    rw [hs]
    dsimp only
    rw [if_pos hforce, again_cons hrest]
    exact ⟨p, rfl, f, fs, hrest, hstuck⟩
  · next hmode =>
    cases hanswer : f.reinit p.current with
    | ok data => exact absurd (.answered (by rw [hanswer]; exact nofun)) hs
    | detach => exact absurd (.answered (by rw [hanswer]; exact nofun)) hs
    | error => exact absurd (.answered (by rw [hanswer]; exact nofun)) hs
    | needs requested =>
      dsimp only
      rw [if_neg hmode]
      obtain ⟨new, d, hdelivered, hnext, hdata⟩ | ⟨hrefused, -⟩ := p.convert_cases requested
      · refine ⟨_, hnext, f, fs, hrest, ?_⟩
        rw [Stuck, if_neg (show (p.prepend new).mode ≠ .force from hmode)]
        intro hsettles
        change Settles f new.data at hsettles
        rw [hdata] at hsettles
        exact hs (.converted hanswer hdelivered hsettles)
      · exact absurd (.refused hanswer hrefused) hs

/-- Behind a filter that is passed, the pass goes on with the next one. -/
theorem halts_passes {mode : InitType} {d d' : AfData} (hpass : Passes mode f d d')
    (hmode : p.mode = mode) (hrest : p.rest = f :: fs) (hcurrent : p.current = d) :
    ∃ q : Pass, q.mode = mode ∧ q.rest = fs ∧ q.current = d' ∧ (Halts turn p ↔ Halts turn q) := by
  induction hpass generalizing p with
  | @ok d data h =>
    exact ⟨{ p with before := { f with data := data } :: p.before, rest := fs }, hmode, rfl, rfl,
      halts_again (turn_ok hrest (hcurrent ▸ h))⟩
  | @detach d hforce h =>
    exact ⟨{ p with rest := fs }, hmode, rfl, hcurrent,
      halts_again (turn_detach hrest (hcurrent ▸ h) (hmode ▸ hforce))⟩
  | @converted d requested d' d'' hforce h hdelivered _ ih =>
    have hturn := turn_needs hrest (hcurrent ▸ h) (hmode ▸ hforce)
    obtain ⟨new, e, he, hnext, hdata⟩ | ⟨hrefused, -⟩ := p.convert_cases requested
    · rw [hcurrent, hdelivered] at he
      obtain ⟨q, hqmode, hqrest, hqcurrent, hq⟩ := ih (p := p.prepend new) hmode hrest
        (hdata.trans (Option.some.inj he).symm)
      exact ⟨q, hqmode, hqrest, hqcurrent, (halts_next (hturn.trans hnext)).trans hq⟩
    · rw [hcurrent, hdelivered] at hrefused
      cases hrefused

/-- A filter that is neither stuck nor passed ends the pass. -/
theorem halts_of_not_passes (hrest : p.rest = f :: fs) (hstuck : ¬Stuck p.mode p.current f)
    (hpass : ∀ d, ¬Passes p.mode f p.current d) : Halts turn p := by
  unfold Stuck at hstuck
  split at hstuck
  · next hforce =>
    cases hanswer : f.reinit p.current with
    | ok data => exact absurd (.ok hanswer) (hpass data)
    | detach => exact absurd hanswer hstuck
    | needs requested =>
      have hturn : p.turn = .done (-2, p) := by
        rw [turn, hrest]
        dsimp only
        rw [hanswer]
        exact if_pos hforce
      exact .done hturn
    | error =>
      exact .done (turn_error hrest hanswer)
  · next hmode =>
    have hsettles := not_not.1 hstuck
    clear hstuck
    generalize hcurrent : p.current = d at hsettles
    induction hsettles generalizing p with
    | @answered d h =>
      cases hanswer : f.reinit p.current with
      | ok data => exact absurd (.ok hanswer) (hpass data)
      | detach => exact absurd (.detach hmode hanswer) (hpass _)
      | needs requested => exact absurd (hcurrent ▸ hanswer) (h requested)
      | error =>
        exact .done (turn_error hrest hanswer)
    | @refused d requested h hrefused =>
      have hturn := turn_needs hrest (hcurrent ▸ h) hmode
      obtain ⟨new, e, he, -⟩ | ⟨-, r, hdone⟩ := p.convert_cases requested
      · rw [hcurrent, hrefused] at he
        cases he
      · exact .done (hturn.trans hdone)
    | @converted d requested d' h hdelivered _ ih =>
      have hturn := turn_needs hrest (hcurrent ▸ h) hmode
      obtain ⟨new, e, he, hnext, hdata⟩ | ⟨hrefused, -⟩ := p.convert_cases requested
      · have hd' : (p.prepend new).current = d' := by
          rw [hcurrent, hdelivered] at he
          exact hdata.trans (Option.some.inj he).symm
        refine (halts_next (hturn.trans hnext)).2 (ih hrest ?_ hmode hd')
        intro d'' hpass'
        rw [hd'] at hpass'
        refine hpass d'' (.converted hmode (hcurrent ▸ h) (hcurrent ▸ hdelivered) hpass')
      · rw [hcurrent, hdelivered] at hrefused
        cases hrefused

theorem not_halts_of_reaches {mode : InitType} {d e : AfData} {g : AfInstance}
    (h : Reaches mode d fs e g) (hmode : p.mode = mode) (hrest : p.rest = fs)
    (hcurrent : p.current = d) (hstuck : Stuck mode e g) : ¬Halts turn p := by
  induction h generalizing p with
  | @here d f fs =>
    refine not_halts (fun _ => AtStuck.next) ⟨f, fs, hrest, ?_⟩
    rwa [hmode, hcurrent]
  | @behind d d' e f g fs hpass _ ih =>
    obtain ⟨q, hqmode, hqrest, hqcurrent, hq⟩ := halts_passes hpass hmode hrest hcurrent
    rw [hq]
    exact ih hqmode hqrest hqcurrent hstuck

/-- A pass ends if and only if it does not reach a filter that is stuck. -/
theorem halts_iff (p : Pass) :
    Halts turn p ↔ ∀ d f, Reaches p.mode p.current p.rest d f → ¬Stuck p.mode d f := by
  constructor
  · intro h d f hreaches hstuck
    exact not_halts_of_reaches hreaches rfl rfl rfl hstuck h
  · intro h
    generalize hrest : p.rest = fs at h
    induction fs generalizing p with
    | nil =>
      have hturn : p.turn = .done (-2, p.appendDummy) := by rw [turn, hrest]
      exact .done hturn
    | cons f fs ih =>
      by_cases hpass : ∃ d', Passes p.mode f p.current d'
      · obtain ⟨d', hpass⟩ := hpass
        obtain ⟨q, hqmode, hqrest, hqcurrent, hq⟩ := halts_passes hpass rfl hrest rfl
        refine hq.2 (ih q hqrest ?_)
        intro d g hreaches
        rw [hqmode, hqcurrent] at hreaches
        rw [hqmode]
        exact h d g (.behind hpass hreaches)
      · exact halts_of_not_passes hrest (h _ _ .here) fun d' hd' => hpass ⟨d', hd'⟩

/-- A filter `format` for the format that it gets, with automatic removal disabled. -/
theorem not_halts_format :
    (format 0 8 2).AcceptsRequested ∧
      ¬Halts turn ⟨⟨48000, 2, 8, 2⟩, .force, [], [format 0 8 2], 1⟩ := by
  constructor
  · intro d requested h
    unfold format at h
    dsimp only at h
    repeat' split at h
    all_goals cases h
  · exact not_halts (fun _ => AtStuck.next) ⟨_, [], rfl, by rw [Stuck, if_pos rfl]; decide⟩

end Pass

end MPlayer.Af
