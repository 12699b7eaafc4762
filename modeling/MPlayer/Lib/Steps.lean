/-!
# Computations with a state

`Steps I J R E m` says what the computation `m` does from a state with `I`: if it gives a value, it
ends in a state with `J`, and if it gives an error, in one with `E`; in both cases `R` relates the
last state to the first one.  The rules follow the computation.
-/

namespace Lib

variable {ε σ α β : Type}

theorem bind_ok {m : EStateM ε σ α} {f : α → EStateM ε σ β} {s s' : σ} {a : α}
    (h : m s = .ok a s') : (m >>= f) s = f a s' := by
  change (match m s with
    | .ok a s' => f a s'
    | .error e s' => .error e s') = _
  rw [h]

theorem bind_error {m : EStateM ε σ α} {f : α → EStateM ε σ β} {s s' : σ} {e : ε}
    (h : m s = .error e s') : (m >>= f) s = .error e s' := by
  change (match m s with
    | .ok a s' => f a s'
    | .error e s' => .error e s') = _
  rw [h]

/-- From every state with `I` the computation ends in one that `R` relates to it, with `J` if it
gives a value and with `E` if it gives an error. -/
structure Steps (I J : σ → Prop) (R : σ → σ → Prop) (E : ε → σ → Prop) (m : EStateM ε σ α) :
    Prop where
  ok : ∀ {s a s'}, I s → m s = .ok a s' → J s' ∧ R s s'
  error : ∀ {s e s'}, I s → m s = .error e s' → E e s' ∧ R s s'

namespace Steps

variable {I J K : σ → Prop} {R R' R'' : σ → σ → Prop} {E : ε → σ → Prop}

variable {m : EStateM ε σ α}

theorem weaken {I' J' : σ → Prop} (h : Steps I J R E m) (hI : ∀ {s}, I' s → I s)
    (hJ : ∀ {s s'}, I' s → J s' → R s s' → J' s') (hR : ∀ {s s'}, R s s' → R' s s') :
    Steps I' J' R' E m where
  ok := by
    intro s a s' hs hm
    obtain ⟨hend, hstep⟩ := h.ok (hI hs) hm
    exact ⟨hJ hs hend hstep, hR hstep⟩
  error := by
    intro s e s' hs hm
    obtain ⟨hend, hstep⟩ := h.error (hI hs) hm
    exact ⟨hend, hR hstep⟩

/-- Weaker errors. -/
theorem errors {E' : ε → σ → Prop} (h : Steps I J R E m) (hE : ∀ {e s}, E e s → E' e s) :
    Steps I J R E' m where
  ok := h.ok
  error := by
    intro s e s' hs hm
    obtain ⟨hend, hstep⟩ := h.error hs hm
    exact ⟨hE hend, hstep⟩

/-- A computation that gives a value from every state. -/
theorem total {a : σ → α} {f : σ → σ} (hm : ∀ s, m s = .ok (a s) (f s))
    (hJ : ∀ {s}, I s → J (f s)) (hR : ∀ {s}, I s → R s (f s)) : Steps I J R E m where
  ok := by
    intro s _ s' hs hrun
    rw [hm] at hrun
    cases hrun
    exact ⟨hJ hs, hR hs⟩
  error := by
    intro s _ s' hs hrun
    rw [hm] at hrun
    cases hrun

theorem pure (hR : ∀ s, R s s) (a : α) : Steps I I R E (pure a : EStateM ε σ α) :=
  total (a := fun _ => a) (f := fun s => s) (fun _ => rfl) (fun hs => hs) fun _ => hR _

theorem throw {e : ε} (hE : ∀ {s}, I s → E e s) (hR : ∀ s, R s s) :
    Steps I J R E (throw e : EStateM ε σ α) where
  ok := by
    intro s _ s' hs hm
    cases hm
  error := by
    intro s _ s' hs hm
    cases hm
    exact ⟨hE hs, hR s⟩

/-- One computation after the other. -/
theorem bind {E' : ε → σ → Prop} {f : α → EStateM ε σ β} (hm : Steps I J R E' m)
    (hf : ∀ a, Steps J K R' E (f a)) (hleft : ∀ {e s s'}, E' e s' → R s s' → E e s' ∧ R'' s s')
    (hboth : ∀ {s s' s''}, R s s' → R' s' s'' → R'' s s'') : Steps I K R'' E (m >>= f) where
  ok := by
    intro s b s'' hs hrun
    change (match m s with
      | .ok a s' => f a s'
      | .error e s' => .error e s') = _ at hrun
    split at hrun
    · next a s' hstep =>
      obtain ⟨hJ, hR⟩ := hm.ok hs hstep
      obtain ⟨hK, hR'⟩ := (hf a).ok hJ hrun
      exact ⟨hK, hboth hR hR'⟩
    · cases hrun
  error := by
    intro s e s'' hs hrun
    change (match m s with
      | .ok a s' => f a s'
      | .error e s' => .error e s') = _ at hrun
    split at hrun
    · next a s' hstep =>
      obtain ⟨hJ, hR⟩ := hm.ok hs hstep
      obtain ⟨hE, hR'⟩ := (hf a).error hJ hrun
      exact ⟨hE, hboth hR hR'⟩
    · next e' s' hstep =>
      cases hrun
      obtain ⟨hE, hR⟩ := hm.error hs hstep
      exact hleft hE hR

/-- A computation that does what another one does from another state. -/
theorem elsewhere {m : EStateM ε σ α}
    (h : ∀ {s}, I s → ∃ (I' J' : σ → Prop) (R' : σ → σ → Prop) (m' : EStateM ε σ α) (s₁ : σ),
      m s = m' s₁ ∧ I' s₁ ∧ Steps I' J' R' E m' ∧ ∀ {s'}, (J' s' → J s') ∧ (R' s₁ s' → R s s')) :
    Steps I J R E m where
  ok := by
    intro s a s' hs hrun
    obtain ⟨I', J', R', m', s₁, hm, hI, hsteps, hweak⟩ := h hs
    rw [hm] at hrun
    obtain ⟨hJ, hR⟩ := hsteps.ok hI hrun
    exact ⟨hweak.1 hJ, hweak.2 hR⟩
  error := by
    intro s e s' hs hrun
    obtain ⟨I', J', R', m', s₁, hm, hI, hsteps, hweak⟩ := h hs
    rw [hm] at hrun
    obtain ⟨hE, hR⟩ := hsteps.error hI hrun
    exact ⟨hE, hweak.2 hR⟩

end Steps

end Lib
