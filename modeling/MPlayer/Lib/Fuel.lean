/-!
# Fuel

A loop that need not terminate is a function of fuel into `Option`.  It
*returns* a value when every large enough amount of fuel gives that value.

More fuel never changes a result, only adds one.  `Approx` is that order on
`Option`, and a function built from the usual operations is monotone in its fuel
because each of them is monotone in it (`Approx.bind`, `Approx.ite`).

A function *settles* to another one if it gives the same once there is enough fuel, and
nothing else before.  So one round of a recursion is known by what it settles to, whether or
not the recursion ends (`Settles.returns_succ`, `Settles.none_succ`).
-/

namespace Lib

universe u

variable {α β : Type u}

/-! ## Monotonicity -/

/-- `y` gives what `x` gives, or more. -/
def Approx (x y : Option α) : Prop := ∀ a, x = some a → y = some a

theorem Approx.refl (x : Option α) : Approx x x := fun _ h => h

theorem Approx.none (y : Option α) : Approx none y := fun _ h => by cases h

variable {x y : Option α} {f : Nat → Option α} {a : α}

theorem Approx.bind {f g : α → Option β} (h : Approx x y) (hf : ∀ a, Approx (f a) (g a)) :
    Approx (x >>= f) (y >>= g) := by
  cases x with
  | none => exact Approx.none _
  | some a =>
    rw [h a rfl]
    exact hf a

theorem Approx.map (f : α → β) (h : Approx x y) : Approx (x.map f) (y.map f) := by
  cases x with
  | none => exact Approx.none _
  | some a =>
    rw [h a rfl]
    exact Approx.refl _

theorem Approx.ite {c : Prop} [Decidable c] {x' y' : Option α} (h : Approx x y)
    (h' : Approx x' y') : Approx (if c then x else x') (if c then y else y') := by
  split
  · exact h
  · exact h'

/-! ## Returning -/

/-- With enough fuel, `f` gives `a`. -/
def Returns (f : Nat → Option α) (a : α) : Prop :=
  ∃ n, ∀ m, n ≤ m → f m = some a

theorem Returns.of_forall (n : Nat) (h : ∀ m, n ≤ m → f m = some a) : Returns f a := ⟨n, h⟩

/-- A monotone function returns what it gives at some amount of fuel. -/
theorem Returns.of_mono {n : Nat} (hf : ∀ m, n ≤ m → Approx (f n) (f m)) (h : f n = some a) :
    Returns f a :=
  ⟨n, fun m hm => hf m hm a h⟩

/-- What a function returns does not depend on the fuel. -/
theorem Returns.unique {b : α} (ha : Returns f a) (hb : Returns f b) : a = b := by
  obtain ⟨n, hn⟩ := ha
  obtain ⟨m, hm⟩ := hb
  have h1 := hn (max n m) (Nat.le_max_left n m)
  have h2 := hm (max n m) (Nat.le_max_right n m)
  exact Option.some.inj (h1.symm.trans h2)

/-- What holds of the result at every large amount of fuel holds of the result. -/
theorem Returns.of_large {P : α → Prop} (h : Returns f a) (n : Nat)
    (hP : ∀ m, n ≤ m → ∃ b, f m = some b ∧ P b) : P a := by
  obtain ⟨k, hk⟩ := h
  obtain ⟨b, hb, hPb⟩ := hP (max n k) (Nat.le_max_left n k)
  have heq := hk (max n k) (Nat.le_max_right n k)
  cases Option.some.inj (heq.symm.trans hb)
  exact hPb

/-! ## Settling -/

/-- With enough fuel `f` gives what `g` gives, and with less nothing else. -/
def Settles (f g : Nat → Option α) : Prop :=
  (∀ n, Approx (f n) (g n)) ∧ ∃ N, ∀ n, N ≤ n → f n = g n

theorem Settles.refl (f : Nat → Option α) : Settles f f :=
  ⟨fun n => Approx.refl (f n), 0, fun _ _ => rfl⟩

theorem Settles.bind {k : Nat → α → Option β} {g : Nat → Option β}
    (hf : Settles f fun _ => some a) (hk : Settles (fun n => k n a) g) :
    Settles (fun n => f n >>= k n) g := by
  obtain ⟨hf, N, hN⟩ := hf
  obtain ⟨hk, M, hM⟩ := hk
  constructor
  · intro n b hb
    obtain ⟨a', ha', hb⟩ := Option.bind_eq_some_iff.mp hb
    cases hf n a' ha'
    exact hk n b hb
  · refine ⟨max N M, fun n hn => ?_⟩
    simp only [hN n (by omega), Option.bind_eq_bind, Option.bind_some]
    exact hM n (by omega)

theorem Settles.map (k : α → β) (h : Settles f fun _ => some a) :
    Settles (fun n => (f n).map k) fun _ => some (k a) := by
  obtain ⟨h, N, hN⟩ := h
  constructor
  · intro n b hb
    obtain ⟨a', ha', rfl⟩ := Option.map_eq_some_iff.mp hb
    cases h n a' ha'
    rfl
  · exact ⟨N, fun n hn => congrArg (Option.map k) (hN n hn)⟩

/-- A function that takes one unit of fuel for a round. -/
theorem Settles.succ (h0 : f 0 = none) (h : Settles (fun n => f (n + 1)) fun _ => some a) :
    Settles f fun _ => some a := by
  obtain ⟨h, N, hN⟩ := h
  constructor
  · intro n b hb
    cases n with
    | zero => cases h0.symm.trans hb
    | succ n => exact h n b hb
  · refine ⟨N + 1, fun n hn => ?_⟩
    obtain ⟨n, rfl⟩ : ∃ m, n = m + 1 := ⟨n - 1, by omega⟩
    exact hN n (by omega)

theorem Settles.returns (h : Settles f fun _ => some a) : Returns f a := h.2

/-- A value that is returned and one that is settled to are the same. -/
theorem Settles.eq_of_returns {b : α} (h : Settles f fun _ => some a) (hb : Returns f b) :
    a = b := h.returns.unique hb

/-- A round leads to what the rest of the recursion returns. -/
theorem Settles.returns_succ {g : Nat → Option α} (h : Settles (fun n => f (n + 1)) g)
    (hg : Returns g a) : Returns f a := by
  obtain ⟨-, N, hN⟩ := h
  obtain ⟨M, hM⟩ := hg
  refine ⟨max N M + 1, fun n hn => ?_⟩
  obtain ⟨n, rfl⟩ : ∃ m, n = m + 1 := ⟨n - 1, by omega⟩
  exact (hN n (by omega)).trans (hM n (by omega))

/-- A round leads nowhere if the rest of the recursion does. -/
theorem Settles.none_succ {g : Nat → Option α} (h : Settles (fun n => f (n + 1)) g) {n : Nat}
    (hg : g n = none) : f (n + 1) = none :=
  Option.eq_none_iff_forall_ne_some.mpr fun a ha => by cases hg.symm.trans (h.1 n a ha)

end Lib
