/-!
# Searching a list for a part

`findSub pat s` is the place of the first part of `s` that is `pat`, as `strstr` finds it.  What
is found is known by where `pat` stands in front of the rest of the list (`findSub_eq_some_iff`,
`findSub_eq_none_iff`), and a place where the first letter of `pat` does not occur is passed over
(`findSub_append`).
-/

namespace Lib

universe u

variable {α : Type u} [DecidableEq α]

/-- The place of the first part that is `pat`. -/
@[grind =] def findSub (pat : List α) : List α → Option Nat
  | [] => if pat = [] then some 0 else none
  | c :: s => if pat <+: c :: s then some 0 else (findSub pat s).map (· + 1)

variable {pat s : List α} {c : α} {i : Nat}

theorem findSub_at_front (h : pat <+: s) : findSub pat s = some 0 := by
  cases s with
  | nil => rw [findSub, if_pos (List.prefix_nil.mp h)]
  | cons c s => rw [findSub, if_pos h]

theorem findSub_cons (h : ¬ pat <+: c :: s) :
    findSub pat (c :: s) = (findSub pat s).map (· + 1) := by
  rw [findSub, if_neg h]

theorem findSub_eq_none_iff : ∀ {s : List α},
    findSub pat s = none ↔ ∀ j ≤ s.length, ¬ pat <+: s.drop j
  | [] => by
    rw [findSub]
    constructor
    · intro h j _ hp
      rw [List.drop_nil] at hp
      rw [if_pos (List.prefix_nil.mp hp)] at h
      cases h
    · intro h
      have hpat : pat ≠ [] := fun hp => h 0 (Nat.le_refl 0) (by rw [hp]; exact List.nil_prefix)
      rw [if_neg hpat]
  | c :: s => by
    by_cases hp : pat <+: c :: s
    · rw [findSub_at_front hp]
      constructor
      · intro h
        cases h
      · intro h
        exact absurd hp (h 0 (Nat.zero_le _))
    · rw [findSub_cons hp, Option.map_eq_none_iff, findSub_eq_none_iff]
      constructor
      · intro h j hj
        cases j with
        | zero => exact hp
        | succ j => exact h j (Nat.le_of_succ_le_succ hj)
      · intro h j hj
        exact h (j + 1) (Nat.succ_le_succ hj)

theorem findSub_eq_some_iff : ∀ {s : List α} {i : Nat},
    findSub pat s = some i ↔ i ≤ s.length ∧ pat <+: s.drop i ∧ ∀ j < i, ¬ pat <+: s.drop j
  | [], i => by
    rw [findSub]
    constructor
    · intro h
      split at h
      · rename_i hp
        cases h
        exact ⟨Nat.le_refl 0, hp ▸ List.nil_prefix, fun j hj => absurd hj (Nat.not_lt_zero j)⟩
      · cases h
    · rintro ⟨hi, hp, -⟩
      rw [List.drop_nil] at hp
      rw [if_pos (List.prefix_nil.mp hp), Nat.eq_zero_of_le_zero hi]
  | c :: s, i => by
    by_cases hp : pat <+: c :: s
    · rw [findSub_at_front hp]
      constructor
      · intro h
        cases h
        exact ⟨Nat.zero_le _, hp, fun j hj => absurd hj (Nat.not_lt_zero j)⟩
      · rintro ⟨-, -, h⟩
        cases i with
        | zero => rfl
        | succ i => exact absurd hp (h 0 (Nat.succ_pos i))
    · rw [findSub_cons hp]
      constructor
      · intro h
        obtain ⟨k, hk, rfl⟩ := Option.map_eq_some_iff.mp h
        obtain ⟨hle, hpre, hno⟩ := findSub_eq_some_iff.mp hk
        refine ⟨Nat.succ_le_succ hle, hpre, fun j hj => ?_⟩
        cases j with
        | zero => exact hp
        | succ j => exact hno j (Nat.lt_of_succ_lt_succ hj)
      · rintro ⟨hle, hpre, hno⟩
        cases i with
        | zero => exact absurd hpre hp
        | succ i =>
          have hk : findSub pat s = some i := findSub_eq_some_iff.mpr
            ⟨Nat.le_of_succ_le_succ hle, hpre, fun j hj => hno (j + 1) (Nat.succ_lt_succ hj)⟩
          rw [hk]
          rfl

/-- What is found stands in the list. -/
theorem findSub_split (h : findSub pat s = some i) :
    ∃ pre suf, s = pre ++ pat ++ suf ∧ pre.length = i := by
  obtain ⟨hle, ⟨suf, hsuf⟩, -⟩ := findSub_eq_some_iff.mp h
  refine ⟨s.take i, suf, ?_, List.length_take_of_le hle⟩
  rw [List.append_assoc, hsuf, List.take_append_drop]

/-- A part in which the first letter does not occur is passed over. -/
theorem findSub_append (s : List α) : ∀ {pre : List α}, c ∉ pre →
    findSub (c :: pat) (pre ++ s) = (findSub (c :: pat) s).map (· + pre.length)
  | [], _ => by
    show _ = (findSub (c :: pat) s).map fun n => n + 0
    exact Option.map_id'.symm
  | d :: pre, h => by
    have hne : ¬ c :: pat <+: d :: (pre ++ s) := fun hp =>
      h ((List.cons_prefix_cons.mp hp).1 ▸ List.mem_cons_self)
    rw [List.cons_append, findSub_cons hne,
      findSub_append s fun hm => h (List.mem_cons_of_mem d hm), Option.map_map]
    rfl

/-- A letter that does not occur is not found. -/
theorem findSub_none_of_not_mem (h : c ∉ s) : findSub (c :: pat) s = none := by
  have happ : findSub (c :: pat) (s ++ []) = (findSub (c :: pat) []).map (· + s.length) :=
    findSub_append [] h
  rw [List.append_nil] at happ
  rw [happ]
  rfl

/-- The first place of a letter. -/
theorem findSub_letter {pre : List α} (suf : List α) (h : c ∉ pre) :
    findSub [c] (pre ++ c :: suf) = some pre.length := by
  rw [findSub_append _ h, findSub_at_front (List.cons_prefix_cons.mpr ⟨rfl, List.nil_prefix⟩)]
  exact congrArg some (Nat.zero_add _)

theorem findSub_letter_none_iff : findSub [c] s = none ↔ c ∉ s := by
  constructor
  · intro h hc
    obtain ⟨pre, suf, rfl, hpre⟩ := List.eq_append_cons_of_mem hc
    rw [findSub_letter suf hpre] at h
    cases h
  · exact findSub_none_of_not_mem

/-- A letter that occurs, with what stands around its first place. -/
theorem findSub_letter_split (h : findSub [c] s = some i) :
    ∃ pre suf, s = pre ++ c :: suf ∧ c ∉ pre ∧ pre.length = i := by
  have hc : c ∈ s := by
    by_cases hc : c ∈ s
    · exact hc
    · rw [findSub_none_of_not_mem hc] at h
      cases h
  obtain ⟨pre, suf, rfl, hpre⟩ := List.eq_append_cons_of_mem hc
  rw [findSub_letter suf hpre] at h
  exact ⟨pre, suf, rfl, hpre, Option.some.inj h⟩

/-- What is a part of the list is found. -/
theorem findSub_isSome_of_part (h : pat <:+: s) : (findSub pat s).isSome := by
  obtain ⟨r, hr⟩ : ∃ r, findSub pat s = r := ⟨_, rfl⟩
  cases r with
  | some i => rw [hr]; rfl
  | none =>
    obtain ⟨pre, suf, rfl⟩ := h
    refine absurd ?_ (findSub_eq_none_iff.mp hr pre.length ?_)
    · rw [List.append_assoc, List.drop_left]
      exact List.prefix_append _ _
    · rw [List.append_assoc, List.length_append]
      exact Nat.le_add_right _ _

omit [DecidableEq α] in
/-- A list is split at the first place of a letter in one way. -/
theorem append_letter_inj : ∀ {as as' bs bs' : List α}, c ∉ as → c ∉ as' →
    (as ++ c :: bs = as' ++ c :: bs' ↔ as = as' ∧ bs = bs')
  | [], [], _, _, _, _ => by
    exact ⟨fun h => ⟨rfl, (List.cons.inj h).2⟩, fun h => h.2 ▸ rfl⟩
  | [], a :: as', _, _, _, h' => by
    refine ⟨fun h => absurd ((List.cons.inj h).1 ▸ List.mem_cons_self) h', fun h => ?_⟩
    cases h.1
  | a :: as, [], _, _, h, _ => by
    refine ⟨fun e => absurd ((List.cons.inj e).1 ▸ List.mem_cons_self) h, fun h => ?_⟩
    cases h.1
  | a :: as, a' :: as', _, _, h, h' => by
    rw [List.cons_append, List.cons_append, List.cons_eq_cons, List.cons_eq_cons,
      append_letter_inj (fun hm => h (List.mem_cons_of_mem a hm))
        (fun hm => h' (List.mem_cons_of_mem a' hm)), and_assoc]

/-- A list that begins in the same way gives the same, if what is found lies there. -/
theorem findSub_congr_take {t : List α} {m : Nat} (h : findSub pat s = some i)
    (hm : i + pat.length ≤ m) (heq : s.take m = t.take m) : findSub pat t = some i := by
  obtain ⟨hle, hpre, hno⟩ := findSub_eq_some_iff.mp h
  have hdrop : ∀ j ≤ i, (s.drop j).take pat.length = (t.drop j).take pat.length := fun j hj => by
    have hj' : pat.length ≤ m - j := by omega
    have hs := congrArg (List.take pat.length) (congrArg (List.drop j) heq)
    rwa [List.drop_take, List.drop_take, List.take_take, List.take_take, Nat.min_eq_left hj'] at hs
  have hiff : ∀ j ≤ i, pat <+: s.drop j ↔ pat <+: t.drop j := fun j hj => by
    rw [List.prefix_iff_eq_take, List.prefix_iff_eq_take, hdrop j hj]
  have hlen : i ≤ t.length := by
    have hlen := congrArg List.length heq
    rw [List.length_take, List.length_take] at hlen
    omega
  exact findSub_eq_some_iff.mpr ⟨hlen, (hiff i (Nat.le_refl i)).mp hpre,
    fun j hj hp => hno j hj ((hiff j (Nat.le_of_lt hj)).mpr hp)⟩

end Lib
