import Mathlib.Algebra.GroupWithZero.Nat
import MPlayer.PlayTree.Backward

/-!
# Steps by more than one

A step by `n` counts the items behind the current one, also those that are nodes, and takes
what is left of `n` with it when it goes up a level.  The step that leaves the level is taken
off `n` too when something is left, so that a step is lost, and the leaves of a node that is
passed over count as one.  `StepsAgree` says when both make no difference.

`levelsAfter` lists how many leaves the items behind a leaf have, level by level.  `climb`
computes from it where a step by `n` goes.  `At.skip` says so for the iterator.
-/

namespace MPlayer

open Lib

/-! ## What is behind a leaf -/

/-- The numbers of leaves of some siblings. -/
def widths : Forest Nat → List Nat
  | .nil => []
  | .cons p below beside => width p below :: widths beside

/-- The numbers of leaves of the items behind leaf `k`, for every level from that of the leaf
up to that of the forest. -/
def levelsAfter : Forest Nat → Nat → List (List Nat)
  | .nil, _ => []
  | .cons p below beside, k =>
    if k < width p below then levelsAfter below k ++ [widths beside]
    else levelsAfter beside (k - width p below)

/-- What is left of `n` steps on the way up from an item with `r` items behind it. -/
def carried (n r : Nat) : Nat := if n - 1 - r ≠ 0 then n - 1 - r else 1

/-- Where a step by `n` goes: to a leaf, by the number of leaves that it goes on, or out of
the levels, by the number of leaves behind and by what is left of `n`. -/
def climb : List (List Nat) → Nat → Nat ⊕ (Nat × Nat)
  | [], n => .inr (0, n)
  | ws :: levels, n =>
    if n ≤ ws.length then .inl ((ws.take (n - 1)).sum + 1)
    else
      match climb levels (carried n ws.length) with
      | .inl k => .inl (ws.sum + k)
      | .inr (k, m) => .inr (ws.sum + k, m)

theorem widths_sum : ∀ f : Forest Nat, (widths f).sum = f.leaves.length
  | .nil => rfl
  | .cons p below beside => by
    rw [widths, List.sum_cons, widths_sum beside, leaves_cons, List.length_append]
    rfl

theorem carried_pos (n r : Nat) : 1 ≤ carried n r := by
  rw [carried]
  split <;> omega

/-- The levels above come after the levels below. -/
theorem climb_append : ∀ (levels levels' : List (List Nat)) (n : Nat),
    climb (levels ++ levels') n =
      match climb levels n with
      | .inl k => .inl k
      | .inr (k, m) =>
        match climb levels' m with
        | .inl k' => .inl (k + k')
        | .inr (k', m') => .inr (k + k', m')
  | [], levels', n => by
    simp only [List.nil_append, climb, Nat.zero_add]
    cases climb levels' n <;> rfl
  | ws :: levels, levels', n => by
    simp only [List.cons_append, climb]
    by_cases hn : n ≤ ws.length
    · simp only [if_pos hn]
    · simp only [if_neg hn, climb_append levels levels']
      cases climb levels (carried n ws.length) with
      | inl k => rfl
      | inr km =>
        obtain ⟨k, m⟩ := km
        cases hrest : climb levels' m with
        | inl k' => simp only [hrest, Nat.add_assoc]
        | inr km' => simp only [hrest, Nat.add_assoc]

/-! ## Along the siblings -/

variable {rand : Nat → Nat → Nat} {heap : Nat → PlayTree} {root : Nat} {config : Bool}

theorem playTreeWalk_none (link : Nat → Option Nat) (n : Nat) :
    playTreeWalk link n none = (none, n) := by
  cases n <;> rfl

/-- A walk beyond the last sibling. -/
theorem playTreeWalk_beyond : ∀ {f : Forest Nat} {parent prev : Option Nat} {n : Nat},
    (playTreeLinks heap).Linked parent prev f → (widths f).length ≤ n →
      playTreeWalk (fun p => (heap p).next) n f.head? = (none, n - (widths f).length)
  | .nil, _, _, n, _, _ => playTreeWalk_none _ n
  | .cons p below beside, _, _, 0, _, hn => absurd hn (Nat.not_succ_le_zero _)
  | .cons p below beside, _, _, n + 1, hl, hn => by
    have hnext : (heap p).next = beside.head? := hl.1.2.2.2
    have hrest := playTreeWalk_beyond hl.2.2 (Nat.le_of_succ_le_succ hn)
    rw [Forest.head?, playTreeWalk, hnext, hrest, widths, List.length_cons, Nat.add_sub_add_right]

variable (root config) in
/-- A walk to one of the siblings, which begins the rest of them. -/
theorem playTreeWalk_within : ∀ {f : Forest Nat} {parent prev : Option Nat} {n : Nat},
    (playTreeLinks heap).Linked parent prev f → Playable heap f → n < (widths f).length →
      ∃ q g prev', g.head? = some q ∧ (playTreeLinks heap).Linked parent prev' g ∧ Playable heap g ∧
        playTreeWalk (fun p => (heap p).next) n f.head? = (some q, 0) ∧
        ∀ {iter : PlayTreeIter} {stack : List Int}, At heap root config g iter 0 stack →
          At heap root config f iter ((widths f).take n).sum stack
  | .cons p below beside, _, prev, 0, hl, hp, _ =>
    ⟨p, .cons p below beside, prev, rfl, hl, hp, rfl, fun h => h⟩
  | .cons p below beside, _, _, n + 1, hl, hp, hn => by
    obtain ⟨q, g, prev', hhead, hlg, hpg, hwalk, hat⟩ :=
      playTreeWalk_within hl.2.2 hp.2.2 (Nat.lt_of_succ_lt_succ hn)
    have hnext : (heap p).next = beside.head? := hl.1.2.2.2
    refine ⟨q, g, prev', hhead, hlg, hpg, ?_, fun h => ?_⟩
    · rw [Forest.head?, playTreeWalk, hnext, hwalk]
    · rw [widths, List.take_succ_cons, List.sum_cons]
      exact (hat h).of_beside

/-! ## A step from a leaf -/

variable {parent : Option Nat} {p n k : Nat} {beside : Forest Nat} {iter s : PlayTreeIter}
  {stack : List Int}

/-- What a step by `n` finds among the siblings behind an item. -/
theorem playTreeIterAim_linked {prev : Option Nat} {below : Forest Nat}
    (hl : (playTreeLinks heap).Linked parent prev (.cons p below beside)) (hn : 1 ≤ n) :
    playTreeIterAim heap p n =
      let r := playTreeWalk (fun p => (heap p).next) (n - 1) beside.head?
      (r.1, if r.2 ≠ 0 then (r.2 : Int) else 1) := by
  have hnext : (heap p).next = beside.head? := hl.1.2.2.2
  obtain ⟨n, rfl⟩ : ∃ m, n = m + 1 := ⟨n - 1, by omega⟩
  rw [playTreeIterAim, if_pos (by omega), Int.toNat_natCast, playTreeWalk, hnext]
  rfl

variable (rand) in
/-- A step by `n` from an item goes to a leaf behind it on its level, or finds nothing. -/
theorem Stands.skip {parent prev : Option Nat} {p n : Nat} {below beside : Forest Nat}
    (hl : (playTreeLinks heap).Linked parent prev (.cons p below beside))
    (hp : Playable heap (.cons p below beside))
    (hparent : ∀ q, parent = some q → (heap q).rnd = false) {iter : PlayTreeIter}
    {stack : List Int} {loop : Int} {calls : List ConfigCall}
    (h : Stands heap root config iter p stack loop calls) (hn : 1 ≤ n) :
    if n ≤ (widths beside).length then
      ∃ iter', IterStep rand iter n .entry iter' ∧
        At heap root config beside iter' ((widths beside).take (n - 1)).sum stack
    else playTreeIterAim heap p n = (none, (carried n (widths beside).length : Int)) := by
  have haim := playTreeIterAim_linked hl hn
  by_cases hin : n ≤ (widths beside).length
  · rw [if_pos hin]
    obtain ⟨q, g, prev', hhead, hlg, hpg, hwalk, hat⟩ :=
      playTreeWalk_within root config (n := n - 1) hl.2.2 hp.2.2 (by omega)
    have hcalm : ∀ q, (heap p).parent = some q → (heap q).rnd = false :=
      fun q hq => hparent q (hl.1.1.symm.trans hq)
    have harrives : Arrives rand heap root config iter n q stack loop calls := by
      refine ⟨_, 1, by decide, h.ready hcalm, fun m => ?_⟩
      rw [h.step_eq hcalm, haim, hwalk]
      rfl
    obtain ⟨iter', hstep, h0⟩ := Arrives.first hhead hlg hpg harrives
    exact ⟨iter', hstep, hat h0⟩
  · rw [if_neg hin, haim, playTreeWalk_beyond hl.2.2 (by omega), carried]
    simp only
    split <;> rfl

/-- What a step comes to that goes where `climb` says: a leaf of the forest, or an item on its
level with nothing to find behind it. -/
def Skips (rand : Nat → Nat → Nat) (heap : Nat → PlayTree) (root : Nat) (config : Bool)
    (f : Forest Nat) (parent : Option Nat) (iter : PlayTreeIter) (k n : Nat)
    (stack : List Int) : Nat ⊕ (Nat × Nat) → Prop
  | .inl j => ∃ iter', IterStep rand iter n .entry iter' ∧
      At heap root config f iter' (k + j) stack
  | .inr (j, m) => k + j + 1 = f.leaves.length ∧ 1 ≤ m ∧ ∃ iter' p, ∃ m' : Nat, ∃ loop calls,
      Stands heap root config iter' p stack loop calls ∧ (heap p).parent = parent ∧
      playTreeIterAim heap p m' = (none, (m : Int)) ∧ Defers rand iter n iter' m'

/-- A step that comes to an item with `m` steps to go. -/
theorem Skips.of_item {prev : Option Nat} {j m : Nat} {below : Forest Nat}
    (hl : (playTreeLinks heap).Linked parent prev (.cons p below beside))
    (hp : Playable heap (.cons p below beside))
    (hparent : ∀ q, parent = some q → (heap q).rnd = false) {iter' : PlayTreeIter} {loop : Int}
    {calls : List ConfigCall} (hm : 1 ≤ m) (hk : k + j + 1 = width p below)
    (h : Stands heap root config iter' p stack loop calls) (hd : Defers rand iter n iter' m) :
    Skips rand heap root config (.cons p below beside) parent iter k n stack
      (match climb [widths beside] m with
      | .inl k' => .inl (j + k')
      | .inr (k', m') => .inr (j + k', m')) := by
  have hskip := h.skip rand hl hp hparent hm
  by_cases hin : m ≤ (widths beside).length
  · rw [if_pos hin] at hskip
    obtain ⟨t, hstep, hat⟩ := hskip
    simp only [climb, if_pos hin]
    refine ⟨t, hd _ _ hstep, ?_⟩
    have hplace : k + (j + (((widths beside).take (m - 1)).sum + 1)) =
        width p below + ((widths beside).take (m - 1)).sum := by omega
    rw [hplace]
    exact hat.of_beside
  · rw [if_neg hin] at hskip
    simp only [climb, if_neg hin]
    refine ⟨?_, carried_pos _ _, iter', p, m, loop, calls, h, hl.1.1, hskip, hd⟩
    have hw : width p below = (Forest.cons p below .nil).leaves.length := rfl
    rw [widths_sum, leaves_cons, List.length_append, ← hw]
    omega

/-- Where a step goes among the siblings of an item, it goes in the whole. -/
theorem Skips.of_beside {below : Forest Nat} {r : Nat ⊕ (Nat × Nat)}
    (h : Skips rand heap root config beside parent iter k n stack r) :
    Skips rand heap root config (.cons p below beside) parent iter (width p below + k) n stack
      r := by
  cases r with
  | inl j =>
    obtain ⟨t, hstep, hat⟩ := h
    refine ⟨t, hstep, ?_⟩
    rw [Nat.add_assoc]
    exact hat.of_beside
  | inr jm =>
    obtain ⟨hend, hrest⟩ := h
    refine ⟨?_, hrest⟩
    have hw : width p below = (Forest.cons p below .nil).leaves.length := rfl
    rw [leaves_cons, List.length_append, ← hw]
    omega

/-- A step by `n` goes where `climb` says. -/
theorem At.skip (hroot : (heap root).parent = none) : ∀ {f : Forest Nat}
    {parent prev : Option Nat} {k n : Nat} {iter : PlayTreeIter} {stack : List Int},
    (playTreeLinks heap).Linked parent prev f → Playable heap f → Loopless heap f →
      (∀ q, parent = some q → (heap q).rnd = false) → 1 ≤ n →
      At heap root config f iter k stack →
      Skips rand heap root config f parent iter k n stack (climb (levelsAfter f k) n)
  | .nil, _, _, _, _, _, _, _, _, _, _, _, h => absurd h.lt (Nat.not_lt_zero _)
  | .cons p below beside, parent, prev, k, n, iter, stack, hl, hp, hloop, hparent, hn, h => by
    rw [levelsAfter]
    by_cases hk : k < width p below
    · rw [if_pos hk, climb_append]
      rcases h.below_or hk with ⟨rfl, rfl, loop, calls, hs⟩ | ⟨c, x, hc, hat⟩
      · exact Skips.of_item hl hp hparent hn rfl hs (Defers.refl _ _)
      · have hrnd : ∀ q, some p = some q → (heap q).rnd = false := calm_of rfl hp.1.1
        have hbelow : Skips rand heap root config below (some p) iter k n (x :: stack)
            (climb (levelsAfter below k) n) :=
          At.skip hroot hl.2.1 hp.2.1 hloop.2.1 hrnd hn hat
        cases hclimb : climb (levelsAfter below k) n with
        | inl j =>
          rw [hclimb] at hbelow
          obtain ⟨t, hstep, hat'⟩ := hbelow
          exact ⟨t, hstep, hat'.of_below⟩
        | inr jm =>
          obtain ⟨j, m⟩ := jm
          rw [hclimb] at hbelow
          obtain ⟨hend, hm, t, q, m', loop, calls, ht, hq, haim, hd⟩ := hbelow
          obtain ⟨t', loop', calls', ht', hd'⟩ :=
            Stands.defers_up hroot ht hq hp.1.1 hloop.1 haim
          rw [← width_below p hc] at hend
          exact Skips.of_item hl hp hparent hm hend ht' (hd.trans hd')
    · rw [if_neg hk]
      obtain ⟨i, rfl⟩ : ∃ i, k = width p below + i := ⟨k - width p below, by omega⟩
      have hat := h.beside (Nat.le_add_right _ _)
      rw [Nat.add_sub_cancel_left] at hat ⊢
      have hbeside : Skips rand heap root config beside parent iter i n stack
          (climb (levelsAfter beside i) n) :=
        At.skip hroot hl.2.2 hp.2.2 hloop.2.2 hparent hn hat
      exact hbeside.of_beside

/-! ## When no step is lost -/

/-- The leaves beyond one of some items. -/
def excess (ws : List Nat) : Int := ws.sum - ws.length

/-- Going up from a leaf level by level, with what is left of `n` steps: the leaves beyond one
in the items that are passed over make up for the steps that are lost, one on each level that
is left with something left of `n`.  Beyond the last level, they are fewer than the steps lost
and left. -/
def StepsAgree : Int → List (List Nat) → Nat → Prop
  | debt, [], n => debt < n
  | debt, ws :: levels, n =>
    if n ≤ ws.length then debt + excess (ws.take (n - 1)) = 0
    else
      StepsAgree (debt + excess ws - if n - 1 - ws.length ≠ 0 then 1 else 0) levels
        (carried n ws.length)

instance StepsAgree.decidable : ∀ (debt : Int) (levels : List (List Nat)) (n : Nat),
    Decidable (StepsAgree debt levels n)
  | debt, [], n => inferInstanceAs (Decidable (debt < n))
  | debt, ws :: levels, n =>
    have := StepsAgree.decidable
      (debt + excess ws - if n - 1 - ws.length ≠ 0 then 1 else 0) levels (carried n ws.length)
    inferInstanceAs (Decidable (if n ≤ ws.length then _ else _))

theorem stepsAgree_iff : ∀ {levels : List (List Nat)} {debt : Int} {n : Nat}, 1 ≤ n →
    (StepsAgree debt levels n ↔
      match climb levels n with
      | .inl j => debt + j = n
      | .inr (j, _) => debt + j < n)
  | [], debt, n, _ => by simp [StepsAgree, climb]
  | ws :: levels, debt, n, hn => by
    rw [StepsAgree, climb]
    by_cases hin : n ≤ ws.length
    · rw [if_pos hin, if_pos hin, excess, List.length_take]
      simp only
      omega
    · rw [if_neg hin, if_neg hin, stepsAgree_iff (carried_pos _ _), excess]
      have hcarried : (carried n ws.length : Int) =
          n - ws.length - if n - 1 - ws.length ≠ 0 then 1 else 0 := by
        rw [carried]
        split <;> omega
      cases climb levels (carried n ws.length) with
      | inl j =>
        simp only
        omega
      | inr jm =>
        simp only
        omega

/-! ## Steps one by one -/

/-- The last of `n` results of steps by one, where `ret` is the one before. -/
inductive Singles (rand : Nat → Nat → Nat) :
    Nat → IterRet → PlayTreeIter → IterRet → PlayTreeIter → Prop where
  | zero {ret : IterRet} {iter : PlayTreeIter} : Singles rand 0 ret iter ret iter
  | succ {n : Nat} {ret ret' ret'' : IterRet} {s t u : PlayTreeIter} :
      IterStep rand s 1 ret' t → Singles rand n ret' t ret'' u →
      Singles rand (n + 1) ret s ret'' u

theorem Singles.unique {ret ret' ret'' : IterRet} {t u : PlayTreeIter}
    (h : Singles rand n ret s ret' t) (h' : Singles rand n ret s ret'' u) :
    ret' = ret'' ∧ t = u := by
  induction h with
  | zero =>
    cases h'
    exact ⟨rfl, rfl⟩
  | succ hstep _ ih =>
    cases h' with
    | succ hstep' hrest =>
      cases Returns.unique hstep hstep'
      exact ih hrest

/-- A step by `n` stops at the entry that `n` steps by one stop at, or both find the end. -/
def SkipsAlike (rand : Nat → Nat → Nat) (iter : PlayTreeIter) (n : Nat) : Prop :=
  ∃ ret t t', IterStep rand iter n ret t ∧ Singles rand n .entry iter ret t' ∧
    (ret = .entry ∧ t.tree = t'.tree ∨ ret = .finish)

/-- The iterator stays where it was when it comes to the end. -/
theorem Stands.finish_stands (rand : Nat → Nat → Nat) {loop d d' : Int} {calls : List ConfigCall}
    (hroot : (heap root).parent = none) (hparent : (heap p).parent = none)
    (h : Stands heap root config iter p stack loop calls)
    (haim : playTreeIterAim heap p d = (none, d')) :
    ∃ iter', IterStep rand iter d .finish iter' ∧
      Stands heap root config iter' p stack loop calls := by
  have hcalm := calm_of_none heap hparent
  have hready := h.ready hcalm
  have htree : (playTreeIterReady iter p).tree = some p := by
    rw [← h.tree_eq, playTreeIterReady, playTreeIterPopEntry]
    split <;> rfl
  refine ⟨{ playTreeIterReady iter p with file := -1 }, IterStep.of_some (N := 0) fun n _ => ?_, ?_⟩
  · rw [h.step_eq hcalm, haim]
    simp only [playTreeIterNoNext, hready.mode_eq, hready.heap_eq, hparent, Option.map_none,
      reduceCtorEq, if_false, playTreeIterUpStep, hready.root_eq, Option.bind_some, hroot, if_true]
  · refine ⟨hready.heap_eq, hready.root_eq, hready.config_eq, htree, hready.stack_eq,
      hready.loop_eq, ?_⟩
    rw [playTreeIterPopEntry, if_neg hready.popped]
    exact hready.calls_eq

/-- At the end, steps by one find the end again. -/
theorem Stands.singles_finish (hroot : (heap root).parent = none)
    (haim : playTreeIterAim heap root 1 = (none, 1)) : ∀ (n : Nat) {iter : PlayTreeIter}
    {stack : List Int} {loop : Int} {calls : List ConfigCall},
    Stands heap root config iter root stack loop calls →
      ∃ iter', Singles rand n .finish iter .finish iter'
  | 0, iter, _, _, _, _ => ⟨iter, .zero⟩
  | n + 1, iter, _, _, _, h => by
    obtain ⟨iter1, hstep, h1⟩ := h.finish_stands rand hroot hroot haim
    obtain ⟨iter2, hrest⟩ := Stands.singles_finish hroot haim n h1
    exact ⟨iter2, .succ hstep hrest⟩

variable {below : Forest Nat}

variable (rand) in
/-- Steps by one go from leaf to leaf, and then find the end. -/
theorem At.singles (hl : (playTreeLinks heap).Linked none none (.cons root below .nil))
    (hp : Playable heap (.cons root below .nil)) (hloop : Loopless heap (.cons root below .nil)) :
    ∀ (n : Nat) {s : PlayTreeIter} {k : Nat}, At heap root config (.cons root below .nil) s k [] →
      (k + n < (Forest.cons root below .nil).leaves.length ∧ ∃ t, Singles rand n .entry s .entry t ∧
          At heap root config (.cons root below .nil) t (k + n) []) ∨
        ((Forest.cons root below .nil).leaves.length ≤ k + n ∧ ∃ t,
          Singles rand n .entry s .finish t)
  | 0, s, k, h => Or.inl ⟨h.lt, s, .zero, h⟩
  | n + 1, s, k, h => by
    rcases At.forward hl.1.1 rfl hl hp hloop (fun q hq => by cases hq) h with
      ⟨t, hstep, hat⟩ | ⟨hend, iter', loop, calls, h', hd⟩
    · rw [← Nat.add_assoc, Nat.add_right_comm]
      rcases At.singles hl hp hloop n hat with ⟨hlt, u, hrest, hat'⟩ | ⟨hle, u, hrest⟩
      · exact Or.inl ⟨hlt, u, .succ hstep hrest, hat'⟩
      · exact Or.inr ⟨hle, u, .succ hstep hrest⟩
    · have haim : playTreeIterAim heap root 1 = (none, 1) := by
        have hnext : (heap root).next = none := hl.1.2.2.2
        rw [playTreeIterAim_one, hnext]
      obtain ⟨t, hstep, ht⟩ := Stands.finish_stands rand hl.1.1 hl.1.1 h' haim
      obtain ⟨u, hrest⟩ : ∃ u, Singles rand n .finish t .finish u :=
        ht.singles_finish hl.1.1 haim n
      exact Or.inr ⟨by omega, u, .succ (hd _ _ hstep) hrest⟩

/-! ## The whole tree -/

/-- Iterators at leaves are at the same item exactly if they are at the same leaf. -/
theorem At.tree_eq_iff (hl : (playTreeLinks heap).Linked none none (.cons root below .nil))
    {t : PlayTreeIter} {i j : Nat} (hs : At heap root config (.cons root below .nil) s i [])
    (ht : At heap root config (.cons root below .nil) t j []) : s.tree = t.tree ↔ i = j := by
  obtain ⟨p, d, front, loop, calls, hp, -, hs⟩ := hs
  obtain ⟨q, d', front', loop', calls', hq, -, ht⟩ := ht
  rw [hs.tree_eq, ht.tree_eq]
  constructor
  · intro heq
    cases heq
    have hnodup := (hl.nodup .nil).sublist (Forest.leaves_sublist _)
    have hlt := (List.getElem?_eq_some_iff.mp hp).1
    refine (List.getElem?_inj (by rw [List.length_map]; exact hlt) hnodup).mp ?_
    rw [List.getElem?_map, List.getElem?_map, hp, hq]
    rfl
  · rintro rfl
    cases hp.symm.trans hq
    rfl

variable (rand)

/-- Where a step by `n` from a leaf of the whole tree goes. -/
theorem At.skip_root (hl : (playTreeLinks heap).Linked none none (.cons root below .nil))
    (hp : Playable heap (.cons root below .nil)) (hloop : Loopless heap (.cons root below .nil))
    (h : At heap root config (.cons root below .nil) s k []) (hn : 1 ≤ n) :
    match climb (levelsAfter (.cons root below .nil) k) n with
    | .inl j => ∃ t, IterStep rand s n .entry t ∧
        At heap root config (.cons root below .nil) t (k + j) []
    | .inr (j, _) => k + j + 1 = (Forest.cons root below .nil).leaves.length ∧
        ∃ t, IterStep rand s n .finish t := by
  have hskip : Skips rand heap root config (.cons root below .nil) none s k n []
      (climb (levelsAfter (.cons root below .nil) k) n) :=
    At.skip hl.1.1 hl hp hloop (fun q hq => by cases hq) hn h
  cases hclimb : climb (levelsAfter (.cons root below .nil) k) n with
  | inl j =>
    rw [hclimb] at hskip
    exact hskip
  | inr jm =>
    rw [hclimb] at hskip
    obtain ⟨hend, -, t, p, m', loop, calls, ht, hparent, haim, hd⟩ := hskip
    obtain ⟨u, hstep, -⟩ := Stands.finish_stands rand hl.1.1 hparent ht haim
    exact ⟨hend, u, hd _ _ hstep⟩

theorem skipsAlike_iff (hl : (playTreeLinks heap).Linked none none (.cons root below .nil))
    (hp : Playable heap (.cons root below .nil)) (hloop : Loopless heap (.cons root below .nil))
    (h : At heap root config (.cons root below .nil) s k []) (hn : 1 ≤ n) :
    SkipsAlike rand s n ↔ StepsAgree 0 (levelsAfter (.cons root below .nil) k) n := by
  have hskip := h.skip_root rand hl hp hloop hn
  have hsingles := At.singles rand hl hp hloop n h
  rw [stepsAgree_iff hn]
  cases hclimb : climb (levelsAfter (.cons root below .nil) k) n with
  | inl j =>
    rw [hclimb] at hskip
    obtain ⟨t, hstep, ht⟩ := hskip
    have hlt := ht.lt
    constructor
    · rintro ⟨ret, t1, t2, hstep1, hrest1, hret⟩
      cases Returns.unique hstep hstep1
      rcases hret with ⟨-, htree⟩ | hret
      · rcases hsingles with ⟨-, u, hrest, hu⟩ | ⟨-, u, hrest⟩
        · obtain ⟨-, rfl⟩ := hrest.unique hrest1
          have := (ht.tree_eq_iff hl hu).mp htree
          simp only
          omega
        · cases (hrest.unique hrest1).1
      · cases hret
    · intro hj
      have hj : j = n := by
        simp only at hj
        omega
      subst hj
      rcases hsingles with ⟨-, u, hrest, hu⟩ | ⟨hle, -⟩
      · exact ⟨.entry, t, u, hstep, hrest, Or.inl ⟨rfl, (ht.tree_eq_iff hl hu).mpr rfl⟩⟩
      · omega
  | inr jm =>
    obtain ⟨j, m⟩ := jm
    rw [hclimb] at hskip
    obtain ⟨hend, t, hstep⟩ := hskip
    constructor
    · rintro ⟨ret, t1, t2, hstep1, hrest1, -⟩
      cases Returns.unique hstep hstep1
      rcases hsingles with ⟨-, u, hrest, -⟩ | ⟨hle, -⟩
      · cases (hrest.unique hrest1).1
      · simp only
        omega
    · intro hj
      simp only at hj
      rcases hsingles with ⟨hlt, -⟩ | ⟨-, u, hrest⟩
      · omega
      · exact ⟨.finish, t, u, hstep, hrest, Or.inr rfl⟩

/-- From every entry of a tree whose nodes are valid and don't loop, a step by `n` goes where
`n` steps by one go exactly if the leaves beyond one in the items passed over make up for the
steps lost on the way up. -/
theorem play_tree_skip (config : Bool)
    (hl : (playTreeLinks heap).Linked none none (.cons root below .nil))
    (hp : Playable heap (.cons root below .nil)) (hloop : Loopless heap (.cons root below .nil))
    (s : PlayTreeIter) (k n : Nat) (h : At heap root config (.cons root below .nil) s k [])
    (hn : 1 ≤ n) :
    SkipsAlike rand s n ↔ StepsAgree 0 (levelsAfter (.cons root below .nil) k) n :=
  skipsAlike_iff rand hl hp hloop h hn

theorem loopHeap_loopless : Loopless (loopHeap 0) (.cons 0 loopForest .nil) :=
  ⟨rfl, ⟨rfl, ⟨rfl, trivial, rfl, trivial, trivial⟩, rfl, trivial, trivial⟩, trivial⟩

/-- Two steps from the first file lead to the third. -/
theorem play_tree_skip_two :
    ∃ s, At (loopHeap 0) 0 true (.cons 0 loopForest .nil) s 0 [] ∧
      SkipsAlike (fun _ _ => 0) s 2 := by
  obtain ⟨s, -, hs⟩ := reachable_leaf (fun _ _ => 0) true (loopHeap_linked 0)
    (loopHeap_playable (Int.le_refl 0)) loopHeap_loopless 0 (by decide)
  exact ⟨s, hs, (play_tree_skip (fun _ _ => 0) true (loopHeap_linked 0)
    (loopHeap_playable (Int.le_refl 0)) loopHeap_loopless s 0 2 hs (by decide)).mpr (by decide)⟩

/-- Three steps at once from the first of three files stop at the third, and three steps one
by one find the end. -/
theorem play_tree_skip_three :
    ((playTreeLinks (loopHeap 0)).Linked none none (.cons 0 loopForest .nil) ∧
        Playable (loopHeap 0) (.cons 0 loopForest .nil) ∧
        Loopless (loopHeap 0) (.cons 0 loopForest .nil)) ∧
      ∃ s, At (loopHeap 0) 0 true (.cons 0 loopForest .nil) s 0 [] ∧
        ¬ SkipsAlike (fun _ _ => 0) s 3 := by
  have hl := loopHeap_linked 0
  have hp := loopHeap_playable (Int.le_refl 0)
  obtain ⟨s, -, hs⟩ := reachable_leaf (fun _ _ => 0) true hl hp loopHeap_loopless 0 (by decide)
  refine ⟨⟨hl, hp, loopHeap_loopless⟩, s, hs, fun h => ?_⟩
  have hagree := (skipsAlike_iff (fun _ _ => 0) hl hp loopHeap_loopless hs (by decide)).mp h
  exact absurd hagree (by decide)

end MPlayer
