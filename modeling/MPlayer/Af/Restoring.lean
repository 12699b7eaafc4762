import Mathlib.Data.List.Basic
import MPlayer.Af.Adding

/-!
# Chains that reinitialization leaves as they are

A chain is settled if each filter answers `AF_OK` to what the one in front of it delivers.  A call
of `af_reinit` leaves a settled chain as it is.  It also removes filters that were inserted and are
redundant (`Restores`), which is how the chain may be found again behind the roll-back.
-/

namespace MPlayer.Af

open Lib

/-- From the format `d` on, each filter answers `AF_OK` and delivers what its `data` says. -/
def Settled : AfData → List AfInstance → Prop
  | _, [] => True
  | d, f :: fs => f.reinit d = .ok f.data ∧ Settled f.data fs

/-- From the format `d` on, the second chain is the first one, with further filters that are
removed when they are asked.  What it says in `data` is not up to date. -/
inductive Restores (mode : InitType) : AfData → List AfInstance → List AfInstance → Prop where
  | nil {d : AfData} : Restores mode d [] []
  | keep {d : AfData} {f : AfInstance} {fs gs : List AfInstance} (data : AfData)
      (h : Restores mode f.data fs gs) : Restores mode d (f :: fs) ({ f with data := data } :: gs)
  | drop {d : AfData} {g : AfInstance} {fs gs : List AfInstance} (hmode : mode ≠ .force)
      (hdetach : g.reinit d = .detach) (h : Restores mode d fs gs) : Restores mode d fs (g :: gs)

theorem Restores.refl (mode : InitType) (d : AfData) (fs : List AfInstance) :
    Restores mode d fs fs := by
  induction fs generalizing d with
  | nil => exact .nil
  | cons f fs ih => exact .keep f.data (ih f.data)

theorem Restores.ne_nil {mode : InitType} {d : AfData} {fs gs : List AfInstance}
    (h : Restores mode d fs gs) (hfs : fs ≠ []) : gs ≠ [] := by
  cases h with
  | nil => exact hfs
  | keep => exact List.cons_ne_nil _ _
  | drop => exact List.cons_ne_nil _ _

namespace Pass

variable {p q : Pass}

/-- Some number of turns leads to a last one, which gives this return value and this chain. -/
def Ends (p : Pass) (rv : Int) (q : Pass) : Prop :=
  ∃ p', Lib.Reaches turn p p' ∧ p'.turn = .done (rv, q)

theorem Ends.next {p' : Pass} {rv : Int} (h : p.turn = .next p') (hends : Ends p' rv q) :
    Ends p rv q := by
  obtain ⟨last, hreach, hdone⟩ := hends
  exact ⟨last, .head h hreach, hdone⟩

variable {fs : List AfInstance} {f : AfInstance}

/-- A pass over a chain that restores a settled one ends with the settled one. -/
theorem restores_ends {mode : InitType} {d : AfData} {gs : List AfInstance}
    (h : Restores mode d fs gs) (hsettled : Settled d fs) (hmode : p.mode = mode)
    (hcurrent : p.current = d) (hrest : p.rest = gs) (hne : gs ≠ []) :
    Ends p 1 { p with before := fs.reverse ++ p.before, rest := [] } := by
  induction h generalizing p with
  | nil => exact absurd rfl hne
  | @keep d f fs gs data h ih =>
    obtain ⟨hok, hsettled⟩ := hsettled
    have hturn : p.turn = again { p with before := f :: p.before, rest := gs } :=
      (turn_ok hrest (hcurrent ▸ hok) :)
    rw [List.reverse_cons, List.append_assoc]
    by_cases hnil : gs = []
    · subst hnil
      cases h
      exact ⟨p, .refl, by rw [hturn, again, if_pos rfl]; rfl⟩
    · rw [again, if_neg hnil] at hturn
      exact .next hturn (ih (p := { p with before := f :: p.before, rest := gs }) hsettled hmode
        rfl rfl hnil)
  | @drop d g fs gs hforce hdetach h ih =>
    have hturn := turn_detach hrest (hcurrent ▸ hdetach) (hmode ▸ hforce)
    by_cases hnil : gs = []
    · subst hnil
      cases h
      exact ⟨p, .refl, by rw [hturn, again, if_pos rfl]; rfl⟩
    · rw [again, if_neg hnil] at hturn
      exact .next hturn (ih (p := { p with rest := gs }) hsettled hmode hcurrent rfl hnil)

/-! ## A turn -/

/-- What a turn with the filter `f` at the cursor leads to.  The filter is done or removed, or stays
where it is, with or without a filter that is inserted. -/
inductive Turned (p : Pass) (f : AfInstance) (fs : List AfInstance) : Turn → Prop where
  | ok (data : AfData) (h : f.reinit p.current = .ok data) :
      Turned p f fs (again { p with before := { f with data := data } :: p.before, rest := fs })
  | removed (h : f.reinit p.current = .detach) : Turned p f fs (again { p with rest := fs })
  | failed {rv : Int} {q : Pass} (h : ∀ data, f.reinit p.current ≠ .ok data) (hrv : rv ≠ 1)
      (hq : q = p ∨ ∃ g : AfInstance, g.id = p.fresh ∧ q = p.prepend g) :
      Turned p f fs (.done (rv, q))
  | stays (h : ∀ data, f.reinit p.current ≠ .ok data) : Turned p f fs (.next p)
  | inserted (g : AfInstance) (h : ∀ data, f.reinit p.current ≠ .ok data)
      (hg : g.reinit p.current = .ok g.data) (hid : g.id = p.fresh) :
      Turned p f fs (.next (p.prepend g))

theorem insert_turned (new : AfInstance) (hf : ∀ data, f.reinit p.current ≠ .ok data)
    (hid : new.id = p.fresh) : Turned p f fs (p.insert new) := by
  unfold insert
  cases hanswer : new.reinit p.current with
  | ok data => exact .inserted _ hf hanswer hid
  | needs => exact .failed hf (by decide) (.inr ⟨new, hid, rfl⟩)
  | detach => exact .failed hf (by decide) (.inr ⟨new, hid, rfl⟩)
  | error => exact .failed hf (by decide) (.inr ⟨new, hid, rfl⟩)

theorem convert_turned (requested : AfData) (hf : ∀ data, f.reinit p.current ≠ .ok data) :
    Turned p f fs (p.convert requested) := by
  unfold convert
  dsimp only
  repeat' split
  · exact .failed hf (by decide) (.inr ⟨channels p.fresh 0, rfl, rfl⟩)
  · exact insert_turned _ hf rfl
  · exact .failed hf (by decide) (.inr ⟨format p.fresh 0 0, rfl, rfl⟩)
  · exact insert_turned _ hf rfl
  · exact .failed hf (by decide) (.inl rfl)

theorem turn_turned (hrest : p.rest = f :: fs) : Turned p f fs p.turn := by
  unfold turn
  rw [hrest]
  dsimp only
  cases hanswer : f.reinit p.current with
  | ok data => exact .ok data hanswer
  | needs requested =>
    have hf : ∀ data, f.reinit p.current ≠ .ok data := by
      rw [hanswer]
      exact nofun
    dsimp only
    split
    · exact .failed hf (by decide) (.inl rfl)
    · exact convert_turned requested hf
  | detach =>
    have hf : ∀ data, f.reinit p.current ≠ .ok data := by
      rw [hanswer]
      exact nofun
    dsimp only
    split
    · rw [again, if_neg (by rw [hrest]; exact List.cons_ne_nil f fs)]
      exact .stays hf
    · exact .removed hanswer
  | error =>
    refine .failed ?_ (by decide) (.inl rfl)
    rw [hanswer]
    exact nofun

/-- The pass that a turn leads to, as the next one or at the end. -/
def reached : Turn → Pass
  | .next q => q
  | .done (_, q) => q

theorem again_reached (p : Pass) : reached (again p) = p := by
  unfold again
  split
  · rfl
  · rfl

theorem again_next (h : again p = .next q) : p = q ∧ q.rest ≠ [] := by
  unfold again at h
  split at h
  · cases h
  · next hne =>
    cases h
    exact ⟨rfl, hne⟩

theorem again_done {rv : Int} (h : again p = .done (rv, q)) : p = q ∧ q.rest = [] := by
  unfold again at h
  split at h
  · next hnil =>
    cases h
    exact ⟨rfl, hnil⟩
  · cases h

/-- A pass goes on with a filter at the cursor. -/
theorem rest_of_next (hturn : p.turn = .next q) : q.rest ≠ [] := by
  cases hrest : p.rest with
  | nil =>
    rw [turn, hrest] at hturn
    cases hturn
  | cons f fs =>
    have hne : p.rest ≠ [] := by
      rw [hrest]
      exact List.cons_ne_nil f fs
    have h := turn_turned hrest
    rw [hturn] at h
    generalize hq : Progress.next q = t at h
    cases h with
    | ok => exact (again_next hq.symm).2
    | removed => exact (again_next hq.symm).2
    | failed => cases hq
    | stays =>
      cases hq
      exact hne
    | inserted g =>
      cases hq
      exact hne

end Pass

end MPlayer.Af
