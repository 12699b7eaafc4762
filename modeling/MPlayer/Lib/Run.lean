/-!
# Runs of a labelled step relation

A *step relation* relates a state, a label and a next state.  A *run* is a
finite sequence of steps, and its labels are kept oldest first.  The only rules
needed to reason about runs are that runs compose and that a predicate kept by
every step is kept by every run.
-/

namespace Lib

universe u v

variable {σ : Type u} {α : Type v}

/-- `Run step s as t`: the steps labelled `as` lead from `s` to `t`. -/
inductive Run (step : σ → α → σ → Prop) : σ → List α → σ → Prop where
  | refl {s : σ} : Run step s [] s
  | tail {s t u : σ} {as : List α} {a : α} :
      Run step s as t → step t a u → Run step s (as ++ [a]) u

/-- A state some run reaches. -/
def Reachable (step : σ → α → σ → Prop) (init : σ → Prop) (t : σ) : Prop :=
  ∃ s as, init s ∧ Run step s as t

variable {step : σ → α → σ → Prop}

theorem Run.single {s t : σ} {a : α} (h : step s a t) : Run step s [a] t :=
  Run.tail .refl h

theorem Run.trans {s t u : σ} {as bs : List α} (h : Run step s as t)
    (h' : Run step t bs u) : Run step s (as ++ bs) u := by
  induction h' with
  | refl => rw [List.append_nil]; exact h
  | tail _ hs ih => rw [← List.append_assoc]; exact .tail ih hs

/-- A predicate kept by every step is kept by every run. -/
theorem Run.invariant {I : σ → Prop} (hstep : ∀ s a t, I s → step s a t → I t)
    {s t : σ} {as : List α} (h : Run step s as t) (hs : I s) : I t := by
  induction h with
  | refl => exact hs
  | tail _ hst ih => exact hstep _ _ _ ih hst

/-- A predicate that holds initially and is kept by every step holds of every
reachable state. -/
theorem Reachable.invariant {I : σ → Prop} {init : σ → Prop} (h0 : ∀ s, init s → I s)
    (hstep : ∀ s a t, I s → step s a t → I t) {t : σ} (h : Reachable step init t) : I t := by
  obtain ⟨s, as, hs, hr⟩ := h
  exact hr.invariant hstep (h0 s hs)

/-- If every step of one relation is a run of another one, so is every run. -/
theorem Run.simulate {τ : Type u} {β : Type v} {step' : τ → β → τ → Prop} {f : σ → τ}
    (hsim : ∀ s a t, step s a t → ∃ bs, Run step' (f s) bs (f t)) {s t : σ} {as : List α}
    (h : Run step s as t) : ∃ bs, Run step' (f s) bs (f t) := by
  induction h with
  | refl => exact ⟨[], .refl⟩
  | tail _ hst ih =>
    obtain ⟨bs, hrun⟩ := ih
    obtain ⟨bs', hrun'⟩ := hsim _ _ _ hst
    exact ⟨bs ++ bs', hrun.trans hrun'⟩

theorem Reachable.extend {init : σ → Prop} {s t : σ} {a : α} (h : Reachable step init s)
    (hst : step s a t) : Reachable step init t := by
  obtain ⟨r, as, hr, hrun⟩ := h
  exact ⟨r, as ++ [a], hr, hrun.tail hst⟩

end Lib
