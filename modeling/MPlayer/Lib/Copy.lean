import MPlayer.Lib.Except
import Mathlib.Data.List.Basic

/-!
# Copies between arrays

`copyInto` is `memcpy` between arrays whose ends are known: outside of them it is undefined.  A loop
over the numbers below `n` is a `foldlM`; what each turn needs and keeps decides what the loop does
(`foldlM_range_spec`).
-/

namespace Lib

variable {α σ ε : Type}

/-! ## Loops -/

/-- A loop whose turn `x` goes on from a state with `I x` if `C x` holds, and else ends with an
error. -/
theorem foldlM_range_spec {f : σ → Nat → Except ε σ} {I : Nat → σ → Prop} {C : Nat → Prop} {e : ε}
    (n : Nat) (hstep : ∀ x < n, ∀ s, I x s →
      (C x → ∃ s', f s x = .ok s' ∧ I (x + 1) s') ∧ (¬C x → f s x = .error e))
    {s : σ} (h0 : I 0 s) :
    ((∀ x < n, C x) → ∃ s', (List.range n).foldlM f s = .ok s' ∧ I n s') ∧
      (¬(∀ x < n, C x) → (List.range n).foldlM f s = .error e) := by
  induction n with
  | zero =>
    exact ⟨fun _ => ⟨s, rfl, h0⟩, fun h => absurd (fun x hx => absurd hx (Nat.not_lt_zero x)) h⟩
  | succ n ih =>
    obtain ⟨hok, herror⟩ := ih fun x hx => hstep x (Nat.lt_succ_of_lt hx)
    rw [List.range_succ, List.foldlM_append]
    by_cases hall : ∀ x < n, C x
    · obtain ⟨s', hs', hI⟩ := hok hall
      obtain ⟨hlast, hbad⟩ := hstep n (Nat.lt_succ_self n) s' hI
      rw [hs', ok_bind]
      by_cases hC : C n
      · obtain ⟨s'', hs'', hI'⟩ := hlast hC
        refine ⟨fun _ => ⟨s'', ?_, hI'⟩, fun h => absurd (fun x hx => ?_) h⟩
        · rw [List.foldlM_cons, hs'']
          rfl
        · cases Nat.lt_succ_iff_lt_or_eq.mp hx with
          | inl hx => exact hall x hx
          | inr hx => rwa [hx]
      · refine ⟨fun h => absurd (h n (Nat.lt_succ_self n)) hC, fun _ => ?_⟩
        rw [List.foldlM_cons, hbad hC]
        rfl
    · refine ⟨fun h => absurd (fun x hx => h x (Nat.lt_succ_of_lt hx)) hall, fun _ => ?_⟩
      rw [herror hall, error_bind]

/-- A loop over a list that may fail follows one that may not, if each turn does. -/
theorem foldlM_follows {β τ : Type} {f : σ → β → Except ε σ} {g : τ → β → τ} {R : τ → σ → Prop}
    {l : List β} (hstep : ∀ b ∈ l, ∀ t s, R t s → ∃ s', f s b = .ok s' ∧ R (g t b) s') {t : τ}
    {s : σ}
    (h : R t s) : ∃ s', l.foldlM f s = .ok s' ∧ R (l.foldl g t) s' := by
  induction l generalizing t s with
  | nil => exact ⟨s, rfl, h⟩
  | cons b l ih =>
    obtain ⟨s', hs', h'⟩ := hstep b List.mem_cons_self t s h
    rw [List.foldlM_cons, hs', ok_bind, List.foldl_cons]
    exact ih (fun b' hb' => hstep b' (List.mem_cons_of_mem b hb')) h'

/-- A loop whose turns all end collects what each turn gives. -/
theorem mapM_ok {β γ δ : Type} {f : β → Except ε γ} {g : γ → δ} {k : β → δ} {l : List β}
    (h : ∀ b ∈ l, ∃ c, f b = .ok c ∧ g c = k b) : ∃ cs, l.mapM f = .ok cs ∧ cs.map g = l.map k := by
  induction l with
  | nil => exact ⟨[], rfl, rfl⟩
  | cons b l ih =>
    obtain ⟨c, hc, hgc⟩ := h b List.mem_cons_self
    obtain ⟨cs, hcs, hgcs⟩ := ih fun b' hb' => h b' (List.mem_cons_of_mem b hb')
    refine ⟨c :: cs, ?_, ?_⟩
    · rw [List.mapM_cons, hc, ok_bind, hcs, ok_bind]
      rfl
    · rw [List.map_cons, List.map_cons, hgc, hgcs]

/-! ## Copies -/

/-- `n` cells of `src` from `j` on are copied to `dst` from `i` on. -/
def copyInto (dst : List α) (i : Nat) (src : List α) (j n : Nat) : Except Fault (List α) :=
  if i + n ≤ dst.length ∧ j + n ≤ src.length then
    .ok (dst.take i ++ ((src.drop j).take n ++ dst.drop (i + n)))
  else .error .undefined

/-- The cells behind a copy. -/
structure Copied (dst : List α) (i : Nat) (src : List α) (j n : Nat) (res : List α) : Prop where
  length : res.length = dst.length
  inside : ∀ k < n, res[i + k]? = src[j + k]?
  outside : ∀ k, k < i ∨ i + n ≤ k → res[k]? = dst[k]?

theorem copyInto_ok {dst src : List α} {i j n : Nat} (hdst : i + n ≤ dst.length)
    (hsrc : j + n ≤ src.length) : ∃ res, copyInto dst i src j n = .ok res ∧
      Copied dst i src j n res := by
  have htake : (dst.take i).length = i := List.length_take_of_le (by omega)
  have hpiece : ((src.drop j).take n).length = n := by
    rw [List.length_take, List.length_drop]
    omega
  refine ⟨_, if_pos ⟨hdst, hsrc⟩, ?_, ?_, ?_⟩
  · simp only [List.length_append, htake, hpiece, List.length_drop]
    omega
  · intro k hk
    rw [List.getElem?_append_right (by omega), htake, Nat.add_sub_cancel_left,
      List.getElem?_append_left (by omega), List.getElem?_take_of_lt hk, List.getElem?_drop]
  · rintro k (hk | hk)
    · rw [List.getElem?_append_left (by omega), List.getElem?_take_of_lt hk]
    · rw [List.getElem?_append_right (by omega), htake, List.getElem?_append_right (by omega),
        hpiece,
        List.getElem?_drop]
      congr 1
      omega

theorem copyInto_error {dst src : List α} {i j n : Nat}
    (h : ¬(i + n ≤ dst.length ∧ j + n ≤ src.length)) :
    copyInto dst i src j n = .error .undefined := if_neg h

end Lib
