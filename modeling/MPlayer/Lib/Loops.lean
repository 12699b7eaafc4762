import MPlayer.Lib.Except

/-!
# Loops over arrays

A loop runs its body until the body leaves it, and a loop that takes too many turns is stopped as
`endless`.  An access outside of an array is stopped as `bounds`.

`Gives may x P` says that `x` is stopped only as `may` allows and that its result satisfies `P`.
`Gives.loop` proves it for a loop from an invariant and a variant.
-/

namespace Lib

universe u

/-- Why a computation is stopped. -/
inductive Halt where
  | bounds
  | divide
  | endless
deriving DecidableEq

/-- How a turn of a loop ends. -/
inductive Turn (σ : Type u) where
  | leave (s : σ)
  | again (s : σ)

/-- The state behind a turn. -/
def Turn.state {σ : Type u} : Turn σ → σ
  | .leave s => s
  | .again s => s

variable {σ τ α : Type}

/-- A loop of at most this many turns. -/
def loop (body : σ → Except Halt (Turn σ)) : Nat → σ → Except Halt σ
  | 0, _ => .error .endless
  | n + 1, s => do
      match ← body s with
      | .leave s => return s
      | .again s => loop body n s

section Turns

variable {body : σ → Except Halt (Turn σ)} {n : Nat} {s t : σ}

theorem loop_leave (h : body s = .ok (.leave t)) : loop body (n + 1) s = .ok t := by
  rw [loop, h]
  rfl

theorem loop_again (h : body s = .ok (.again t)) : loop body (n + 1) s = loop body n t := by
  rw [loop, h]
  rfl

theorem loop_error {e : Halt} (h : body s = .error e) : loop body (n + 1) s = .error e := by
  rw [loop, h]
  rfl

/-- What every turn keeps holds behind the loop. -/
theorem loop_keeps {P : σ → Prop} (hbody : ∀ {s turn}, P s → body s = .ok turn → P turn.state)
    (hs : P s) (h : loop body n s = .ok t) : P t := by
  induction n generalizing s with
  | zero => cases h
  | succ n ih =>
    cases hturn : body s with
    | error e =>
      rw [loop_error hturn] at h
      cases h
    | ok turn =>
      have hstate := hbody hs hturn
      cases turn with
      | leave u =>
        rw [loop_leave hturn] at h
        cases h
        exact hstate
      | again u =>
        rw [loop_again hturn] at h
        exact ih hstate h

end Turns

/-! ## Results -/

/-- What the computation gives satisfies `P`, and it is stopped only as `may` allows. -/
def Gives (may : Halt → Prop) (x : Except Halt α) (P : α → Prop) : Prop :=
  match x with
  | .ok a => P a
  | .error e => may e

section Results

variable {may : Halt → Prop}

theorem Gives.ok {P : α → Prop} {a : α} (h : P a) : Gives may (.ok a) P := h

variable {x : Except Halt α} {P : α → Prop}

theorem Gives.mono {Q : α → Prop} (h : Gives may x P) (hPQ : ∀ a, P a → Q a) : Gives may x Q := by
  cases x with
  | ok a => exact hPQ a h
  | error e => exact h

theorem Gives.bind {x : Except Halt σ} {f : σ → Except Halt τ} {P : σ → Prop} {Q : τ → Prop}
    (h : Gives may x P) (hf : ∀ a, P a → Gives may (f a) Q) : Gives may (x >>= f) Q := by
  cases x with
  | ok a => exact hf a h
  | error e => exact h

theorem Gives.and {Q : α → Prop} (h : Gives may x P) (h' : Gives may x Q) :
    Gives may x fun a => P a ∧ Q a := by
  cases x with
  | ok a => exact ⟨h, h'⟩
  | error e => exact h

/-- A computation that may not be stopped gives a result. -/
theorem Gives.result (h : Gives (fun _ => False) x P) : ∃ a, x = .ok a ∧ P a := by
  cases x with
  | ok a => exact ⟨a, rfl, h⟩
  | error e => exact h.elim

/-- What a turn of a loop does: it leaves with `Q`, or goes on with `I` and less to do. -/
def Turn.Keeps (I Q : σ → Prop) (v : σ → Nat) (s : σ) : Turn σ → Prop
  | .leave s' => Q s'
  | .again s' => I s' ∧ v s' < v s

/-- A loop whose every turn keeps an invariant and does some of the work ends. -/
theorem Gives.loop {body : σ → Except Halt (Turn σ)} {I Q : σ → Prop} (v : σ → Nat)
    (hbody : ∀ s, I s → Gives may (body s) (Turn.Keeps I Q v s)) {n : Nat} {s : σ} (hI : I s)
    (hn : v s < n) : Gives may (Lib.loop body n s) Q := by
  induction n generalizing s with
  | zero => exact absurd hn (Nat.not_lt_zero _)
  | succ n ih =>
    refine (hbody s hI).bind ?_
    rintro (s' | s') hkeeps
    · exact Gives.ok (P := Q) hkeeps
    · exact ih hkeeps.1 (Nat.lt_of_lt_of_le hkeeps.2 (Nat.le_of_lt_succ hn))

end Results

/-! ## Arrays -/

/-- The element at an index. -/
def fetch (xs : List α) (i : Int) : Except Halt α :=
  if 0 ≤ i then
    match xs[i.toNat]? with
    | some x => .ok x
    | none => .error .bounds
  else .error .bounds

/-- The array with another element at an index. -/
def store (xs : List α) (i : Int) (x : α) : Except Halt (List α) :=
  if 0 ≤ i ∧ i.toNat < xs.length then .ok (xs.set i.toNat x) else .error .bounds

/-- The array with the element at an index changed. -/
def amend (xs : List α) (i : Int) (f : α → α) : Except Halt (List α) := do
  store xs i (f (← fetch xs i))

variable {xs ys : List α} {i : Nat} {f : Nat → α → α}

theorem fetch_eq {x : α} (h : xs[i]? = some x) : fetch xs (i : Int) = .ok x := by
  unfold fetch
  rw [if_pos (Int.natCast_nonneg i), Int.toNat_natCast, h]

theorem store_eq (h : i < xs.length) (x : α) : store xs (i : Int) x = .ok (xs.set i x) := by
  unfold store
  rw [if_pos ⟨Int.natCast_nonneg i, h⟩, Int.toNat_natCast]

theorem amend_eq {x : α} (h : xs[i]? = some x) (f : α → α) :
    amend xs (i : Int) f = .ok (xs.set i (f x)) := by
  have hlt : i < xs.length := (List.getElem?_eq_some_iff.mp h).1
  unfold amend
  rw [fetch_eq h, ok_bind, store_eq hlt]

/-- A turn of `each`. -/
def eachTurn (n : Int) (f : Nat → α → α) (s : Int × List α) :
    Except Halt (Turn (Int × List α)) :=
  if s.1 < n then do return .again (s.1 + 1, ← amend s.2 s.1 (f s.1.toNat)) else return .leave s

/-- `for (i = 0; i < n; i++) xs[i] = f(i, xs[i])`. -/
def each (fuel : Nat) (n : Int) (f : Nat → α → α) (xs : List α) : Except Halt (List α) := do
  return (← loop (eachTurn n f) fuel (0, xs)).2

/-- `ys` is `xs` with the elements from `lo` up to `i` changed. -/
def Swept (f : Nat → α → α) (xs : List α) (lo i : Nat) (ys : List α) : Prop :=
  ys.length = xs.length ∧ ∀ k, ys[k]? = if lo ≤ k ∧ k < i then xs[k]?.map (f k) else xs[k]?

theorem Swept.start (f : Nat → α → α) (xs : List α) (lo : Nat) : Swept f xs lo lo xs :=
  ⟨rfl, fun _ => (if_neg (by omega)).symm⟩

/-- The next element is still as it was. -/
theorem Swept.fresh {lo : Nat} (h : Swept f xs lo i ys) : ys[i]? = xs[i]? := by
  rw [h.2 i, if_neg (by omega)]

theorem Swept.succ {lo : Nat} {y : α} (h : Swept f xs lo i ys) (hlo : lo ≤ i)
    (hy : ys[i]? = some y) : Swept f xs lo (i + 1) (ys.set i (f i y)) := by
  have hlt : i < ys.length := (List.getElem?_eq_some_iff.mp hy).1
  have hx : xs[i]? = some y := h.fresh.symm.trans hy
  refine ⟨by rw [List.length_set, h.1], fun k => ?_⟩
  rw [List.getElem?_set]
  by_cases hk : i = k
  · subst hk
    rw [if_pos rfl, if_pos hlt, if_pos ⟨hlo, Nat.lt_succ_self i⟩, hx]
    rfl
  · rw [if_neg hk, h.2 k]
    by_cases hki : lo ≤ k ∧ k < i
    · rw [if_pos hki, if_pos ⟨hki.1, Nat.lt_succ_of_lt hki.2⟩]
    · rw [if_neg hki, if_neg (by omega)]

theorem Swept.all (h : Swept f xs 0 i ys) (hi : xs.length ≤ i) : ys = xs.mapIdx f := by
  refine List.ext_getElem? fun k => ?_
  rw [List.getElem?_mapIdx, h.2 k]
  split
  · rfl
  · rw [List.getElem?_eq_none (by omega)]
    rfl

/-- A loop over a whole array stays inside it and ends. -/
theorem each_eq {fuel : Nat} {n : Int} (hn : n = xs.length) (hfuel : xs.length < fuel) :
    each fuel n f xs = .ok (xs.mapIdx f) := by
  have hloop : Gives (fun _ => False) (loop (eachTurn n f) fuel (0, xs))
      fun s => s.2 = xs.mapIdx f := by
    refine Gives.loop (I := fun s : Int × List α =>
        ∃ i : Nat, s.1 = i ∧ i ≤ xs.length ∧ Swept f xs 0 i s.2)
      (fun s => xs.length - s.1.toNat) ?_ ⟨0, rfl, Nat.zero_le _, Swept.start f xs 0⟩ (by simpa)
    rintro ⟨_, ys⟩ ⟨i, rfl, hi, hswept⟩
    unfold eachTurn
    split
    · rename_i hlt
      have hlt' : i < ys.length := by
        rw [hswept.1]
        omega
      have hy : ys[i]? = some ys[i] := List.getElem?_eq_getElem hlt'
      rw [amend_eq hy, ok_bind]
      rw [hswept.1] at hlt'
      refine Gives.ok ⟨⟨i + 1, rfl, hlt', ?_⟩, ?_⟩
      · rw [Int.toNat_natCast]
        exact hswept.succ (Nat.zero_le i) hy
      · dsimp only
        omega
    · exact Gives.ok (hswept.all (by omega))
  obtain ⟨s, hs, hxs⟩ := hloop.result
  unfold each
  rw [hs, ok_bind]
  exact congrArg Except.ok hxs

end Lib
