/-!
# Nested scopes

A scope is opened by a push and closed by its pop.  A run *inside* a scope consists of
steps and of whole inner scopes, so that its pushes and pops match.

What such a run keeps is shown with a predicate that is indexed by the depth: every step
keeps it, a push takes it one level down and a pop one level up.
-/

namespace Lib

universe u v

variable {σ : Type u} {step step' push pop : σ → σ → Prop}

/-- `Nested step push pop s t`: steps and matching pushes and pops lead from `s` to `t`. -/
inductive Nested (step push pop : σ → σ → Prop) : σ → σ → Prop where
  | refl {s : σ} : Nested step push pop s s
  | step {s t u : σ} : Nested step push pop s t → step t u → Nested step push pop s u
  | nest {s t u v w : σ} : Nested step push pop s t → push t u → Nested step push pop u v →
      pop v w → Nested step push pop s w

/-- A predicate of the depth that every step keeps, every push takes down and every pop
takes up is kept by the runs inside a scope. -/
theorem Nested.invariant {I : Nat → σ → Prop} (hstep : ∀ n s t, I n s → step s t → I n t)
    (hpush : ∀ n s t, I n s → push s t → I (n + 1) t)
    (hpop : ∀ n s t, I (n + 1) s → pop s t → I n t) {s t : σ}
    (h : Nested step push pop s t) : ∀ n, I n s → I n t := by
  induction h with
  | refl => exact fun _ hs => hs
  | step _ hst ih => exact fun n hs => hstep n _ _ (ih n hs) hst
  | nest _ hpu _ hpo ih ihin =>
    intro n hs
    exact hpop n _ _ (ihin (n + 1) (hpush n _ _ (ih n hs) hpu)) hpo

end Lib
