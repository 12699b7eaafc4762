import MPlayer.Lib.Run
import MPlayer.PlayTree.Forward

/-!
# Backward traversal

A step back into a node goes to its last child and on from there with a step by
zero, which enters that child at its first leaf and not at its last one.  So a
step back undoes a step forward only where the last child of the node before has a
single leaf (`Retraceable`).

On a tree without loops the place of the iterator is the number of a leaf (`At`).
`leafBefore` computes to which leaf a step back goes.  `At.forward` and
`At.backward` say so for the iterator, and the rest is about numbers.
-/

namespace MPlayer

open Lib

/-! ## The leaf before -/

/-- The leaf of an item, counted in the item, at which a step back enters it. -/
def backEntry (below : Forest Nat) : Nat := below.leaves.length - below.lastTree.leaves.length

/-- The number of leaves of an item. -/
def width (p : Nat) (below : Forest Nat) : Nat := (Forest.cons p below .nil).leaves.length

/-- The leaf that a step back goes to from leaf `k`, or `none` when it leaves the
forest. -/
def leafBefore : Forest Nat → Nat → Option Nat
  | .nil, _ => none
  | .cons p below beside, k =>
    if k < width p below then leafBefore below k
    else
      match leafBefore beside (k - width p below) with
      | some j => some (width p below + j)
      | none => some (backEntry below)

/-- Every item before another one is a leaf, or its last child has only one leaf. -/
def Retraceable : Forest Nat → Prop
  | .nil => True
  | .cons _ below beside =>
    (beside.head? = none ∨ below.head? = none ∨ below.lastTree.leaves.length = 1) ∧
      Retraceable below ∧ Retraceable beside

theorem leaves_cons (p : Nat) (below beside : Forest Nat) :
    (Forest.cons p below beside).leaves = (Forest.cons p below .nil).leaves ++ beside.leaves := by
  cases below with
  | nil => rfl
  | cons c ds cs => simp only [Forest.leaves, List.append_nil]

theorem width_pos (p : Nat) (below : Forest Nat) : 0 < width p below :=
  Forest.leaves_pos rfl

theorem width_below {below : Forest Nat} {c : Nat} (p : Nat) (h : below.head? = some c) :
    width p below = below.leaves.length := by
  cases below with
  | nil => cases h
  | cons c ds cs => simp [width, Forest.leaves]

theorem lastTree_leaves_pos {f : Forest Nat} {p : Nat} (h : f.head? = some p) :
    0 < f.lastTree.leaves.length := by
  cases f with
  | nil => cases h
  | cons p below beside =>
    obtain ⟨ds, hds⟩ := Forest.lastTree_head p below beside
    rw [hds]
    exact Forest.leaves_pos rfl

/-- There is no leaf before the first one. -/
theorem leafBefore_zero : ∀ f : Forest Nat, leafBefore f 0 = none
  | .nil => rfl
  | .cons p below beside => by
    rw [leafBefore, if_pos (width_pos p below)]
    exact leafBefore_zero below

/-- A step back from the first leaf behind an item enters the item at its last leaf
exactly when it is a leaf itself or its last child has only one. -/
theorem backEntry_eq_iff (p : Nat) (below : Forest Nat) :
    backEntry below + 1 = width p below ↔
      below.head? = none ∨ below.lastTree.leaves.length = 1 := by
  cases below with
  | nil => simp [backEntry, width, Forest.leaves, Forest.lastTree, Forest.head?]
  | cons c ds cs =>
    obtain ⟨front, hfront⟩ := Forest.leaves_lastTree (.cons c ds cs)
    have hpos := lastTree_leaves_pos (f := .cons c ds cs) rfl
    have hlen := congrArg List.length hfront
    rw [List.length_append] at hlen
    rw [width_below p rfl, backEntry]
    simp only [Forest.head?, reduceCtorEq, false_or]
    omega

/-- Steps back retrace the leaves exactly in a retraceable forest. -/
theorem retraceable_iff : ∀ f : Forest Nat,
    Retraceable f ↔ ∀ k, k + 1 < f.leaves.length → leafBefore f (k + 1) = some k
  | .nil => by simp [Retraceable, Forest.leaves]
  | .cons p below beside => by
    have hlen : (Forest.cons p below beside).leaves.length
        = width p below + beside.leaves.length := by
      rw [leaves_cons, List.length_append, width]
    have hw := width_pos p below
    have hbelow := retraceable_iff below
    have hbeside := retraceable_iff beside
    constructor
    · rintro ⟨hentry, hb, hs⟩ k hk
      rw [leafBefore]
      by_cases hin : k + 1 < width p below
      · rw [if_pos hin]
        cases below with
        | nil =>
          have hone : width p .nil = 1 := rfl
          omega
        | cons c ds cs =>
          rw [width_below p rfl] at hin
          exact hbelow.mp hb k hin
      · rw [if_neg hin]
        cases beside with
        | nil =>
          rw [hlen, Forest.leaves, List.length_nil] at hk
          omega
        | cons b es bs =>
          obtain ⟨j, hj⟩ : ∃ j, k + 1 - width p below = j := ⟨_, rfl⟩
          rw [hj]
          cases j with
          | zero =>
            rw [leafBefore_zero]
            have hlast := (backEntry_eq_iff p below).mpr
              (hentry.resolve_left (by simp [Forest.head?]))
            simp only [Option.some.injEq]
            omega
          | succ j =>
            rw [hbeside.mp hs j (by omega)]
            simp only [Option.some.injEq]
            omega
    · intro h
      refine ⟨?_, hbelow.mpr fun k hk => ?_, hbeside.mpr fun k hk => ?_⟩
      · cases beside with
        | nil => exact Or.inl rfl
        | cons b es bs =>
          refine Or.inr ((backEntry_eq_iff p below).mp ?_)
          have hpos := Forest.leaves_pos (f := .cons b es bs) rfl
          have hfirst := h (width p below - 1) (by omega)
          rw [leafBefore, if_neg (by omega)] at hfirst
          have hzero : width p below - 1 + 1 - width p below = 0 := by omega
          rw [hzero, leafBefore_zero] at hfirst
          simp only [Option.some.injEq] at hfirst
          omega
      · cases below with
        | nil =>
          rw [Forest.leaves, List.length_nil] at hk
          omega
        | cons c ds cs =>
          have hk' : k + 1 < width p (.cons c ds cs) := by
            rw [width_below p rfl]
            exact hk
          have hstep := h k (by omega)
          rw [leafBefore, if_pos hk'] at hstep
          exact hstep
      · have hstep := h (width p below + k) (by omega)
        rw [leafBefore, if_neg (by omega)] at hstep
        have hsub : width p below + k + 1 - width p below = k + 1 := by omega
        rw [hsub] at hstep
        cases hback : leafBefore beside (k + 1) with
        | none =>
          rw [hback] at hstep
          simp only [Option.some.injEq] at hstep
          have hle : backEntry below < width p below := by
            cases below with
            | nil => exact hw
            | cons c ds cs =>
              have hpos := lastTree_leaves_pos (f := .cons c ds cs) rfl
              rw [width_below p rfl, backEntry]
              have := Forest.leaves_pos (f := .cons c ds cs) rfl
              omega
          omega
        | some j =>
          rw [hback] at hstep
          simp only [Option.some.injEq] at hstep
          simp only [Option.some.injEq]
          omega

/-! ## The iterator at a leaf -/

variable {rand : Nat → Nat → Nat} {heap : Nat → PlayTree} {root : Nat} {config : Bool}

/-- The iterator stands at leaf `k` of the forest, whose trees have the status stack
`stack`. -/
def At (heap : Nat → PlayTree) (root : Nat) (config : Bool) (f : Forest Nat)
    (iter : PlayTreeIter) (k : Nat) (stack : List Int) : Prop :=
  ∃ p d front loop calls, f.leaves[k]? = some (p, d) ∧ front.length = d ∧
    Stands heap root config iter p (front ++ stack) loop calls

theorem At.lt {f : Forest Nat} {iter : PlayTreeIter} {k : Nat} {stack : List Int}
    (h : At heap root config f iter k stack) : k < f.leaves.length := by
  obtain ⟨p, d, front, loop, calls, hk, -, -⟩ := h
  exact (List.getElem?_eq_some_iff.mp hk).1

/-- A leaf of an item's children is a leaf of the item. -/
theorem At.of_below {p : Nat} {below beside : Forest Nat} {iter : PlayTreeIter} {k : Nat}
    {x : Int} {stack : List Int} (h : At heap root config below iter k (x :: stack)) :
    At heap root config (.cons p below beside) iter k stack := by
  obtain ⟨q, d, front, loop, calls, hk, hd, hs⟩ := h
  cases below with
  | nil => simp [Forest.leaves] at hk
  | cons c ds cs =>
    have hlt := (List.getElem?_eq_some_iff.mp hk).1
    refine ⟨q, d + 1, front ++ [x], loop, calls, ?_, ?_, ?_⟩
    · rw [Forest.leaves, List.getElem?_append_left (by rw [List.length_map]; exact hlt),
        List.getElem?_map, hk]
      rfl
    · rw [List.length_append, hd]
      rfl
    · rw [List.append_assoc]
      exact hs

/-- A leaf of the siblings is a leaf of the whole. -/
theorem At.of_beside {p : Nat} {below beside : Forest Nat} {iter : PlayTreeIter} {k : Nat}
    {stack : List Int} (h : At heap root config beside iter k stack) :
    At heap root config (.cons p below beside) iter (width p below + k) stack := by
  obtain ⟨q, d, front, loop, calls, hk, hd, hs⟩ := h
  refine ⟨q, d, front, loop, calls, ?_, hd, hs⟩
  have hw : width p below = (Forest.cons p below .nil).leaves.length := rfl
  rw [leaves_cons, hw, List.getElem?_append_right (Nat.le_add_right _ _), Nat.add_sub_cancel_left]
  exact hk

/-- A leaf of the last tree, counted in the whole. -/
theorem At.of_lastTree {f : Forest Nat} {iter : PlayTreeIter} {k : Nat} {stack : List Int}
    (h : At heap root config f.lastTree iter k stack) :
    At heap root config f iter (f.leaves.length - f.lastTree.leaves.length + k) stack := by
  obtain ⟨q, d, front, loop, calls, hk, hd, hs⟩ := h
  refine ⟨q, d, front, loop, calls, ?_, hd, hs⟩
  obtain ⟨before, hbefore⟩ := Forest.leaves_lastTree f
  have hlen : f.leaves.length - f.lastTree.leaves.length = before.length := by
    rw [hbefore, List.length_append, Nat.add_sub_cancel]
  rw [hlen, hbefore, List.getElem?_append_right (Nat.le_add_right _ _), Nat.add_sub_cancel_left]
  exact hk

/-- A leaf of an item is the item itself or a leaf of its children. -/
theorem At.below_or {p : Nat} {below beside : Forest Nat} {iter : PlayTreeIter} {k : Nat}
    {stack : List Int} (h : At heap root config (.cons p below beside) iter k stack)
    (hk : k < width p below) :
    (below = .nil ∧ k = 0 ∧ ∃ loop calls, Stands heap root config iter p stack loop calls) ∨
      ∃ c x, below.head? = some c ∧ At heap root config below iter k (x :: stack) := by
  obtain ⟨q, d, front, loop, calls, hkq, hd, hs⟩ := h
  cases below with
  | nil =>
    have hone : width p .nil = 1 := rfl
    have hzero : k = 0 := by omega
    subst hzero
    simp only [Forest.leaves, List.getElem?_cons_zero, Option.some.injEq, Prod.mk.injEq] at hkq
    obtain ⟨rfl, rfl⟩ := hkq
    rw [List.length_eq_zero_iff.mp hd] at hs
    exact Or.inl ⟨rfl, rfl, loop, calls, hs⟩
  | cons c ds cs =>
    rw [width_below p rfl] at hk
    rw [Forest.leaves, List.getElem?_append_left (by rw [List.length_map]; exact hk),
      List.getElem?_map] at hkq
    obtain ⟨⟨q', d'⟩, hk', heq⟩ := Option.map_eq_some_iff.mp hkq
    simp only [Prod.mk.injEq] at heq
    obtain ⟨rfl, rfl⟩ := heq
    obtain ⟨x, hx⟩ : ∃ x, front = front.dropLast ++ [x] := by
      refine ⟨front.getLast (by intro hnil; rw [hnil] at hd; cases hd), ?_⟩
      exact (List.dropLast_concat_getLast _).symm
    refine Or.inr ⟨c, x, rfl, q', d', front.dropLast, loop, calls, hk', ?_, ?_⟩
    · rw [List.length_dropLast, hd]
      rfl
    · rw [hx, List.append_assoc] at hs
      exact hs

/-- A leaf behind an item is a leaf of the siblings. -/
theorem At.beside {p : Nat} {below beside : Forest Nat} {iter : PlayTreeIter} {k : Nat}
    {stack : List Int} (h : At heap root config (.cons p below beside) iter k stack)
    (hk : width p below ≤ k) : At heap root config beside iter (k - width p below) stack := by
  obtain ⟨q, d, front, loop, calls, hkq, hd, hs⟩ := h
  refine ⟨q, d, front, loop, calls, ?_, hd, hs⟩
  rw [leaves_cons, List.getElem?_append_right hk] at hkq
  exact hkq

/-! ## Steps from leaf to leaf -/

/-- A step does what another one does. -/
def Defers (rand : Nat → Nat → Nat) (iter : PlayTreeIter) (d : Int) (iter' : PlayTreeIter)
    (d' : Int) : Prop :=
  ∀ ret t, IterStep rand iter' d' ret t → IterStep rand iter d ret t

theorem Defers.refl (iter : PlayTreeIter) (d : Int) : Defers rand iter d iter d :=
  fun _ _ h => h

theorem Defers.trans {s t u : PlayTreeIter} {d e f : Int} (h : Defers rand s d t e)
    (h' : Defers rand t e u f) : Defers rand s d u f := fun _ _ hu => h _ _ (h' _ _ hu)

/-- No node of the forest loops. -/
def Loopless (heap : Nat → PlayTree) : Forest Nat → Prop
  | .nil => True
  | .cons p below beside => (heap p).loop = 0 ∧ Loopless heap below ∧ Loopless heap beside

theorem Playable.lastTree : ∀ {f : Forest Nat}, Playable heap f → Playable heap f.lastTree
  | .nil, h => h
  | .cons _ _ .nil, h => h
  | .cons _ _ (.cons _ _ _), h => h.2.2.lastTree

/-- Entering some siblings by a forward step comes to their first leaf. -/
theorem Arrives.first : ∀ {f : Forest Nat} {parent prev : Option Nat} {p : Nat}
    {iter : PlayTreeIter} {d : Int} {stack : List Int} {loop : Int} {calls : List ConfigCall},
    f.head? = some p → (playTreeLinks heap).Linked parent prev f → Playable heap f →
      Arrives rand heap root config iter d p stack loop calls →
      ∃ iter', IterStep rand iter d .entry iter' ∧ At heap root config f iter' 0 stack
  | .nil, _, _, _, _, _, _, _, _, hhead, _, _, _ => by cases hhead
  | .cons p .nil beside, parent, prev, p', iter, d, stack, loop, calls, hhead, hl, hp, h => by
    cases hhead
    obtain ⟨iter0, d', hd, hready, heq⟩ := h
    obtain ⟨iter1, h1, N, hN⟩ := hready.visit_entry hl hp d'
    exact ⟨iter1, IterStep.of_some (N := N) (fun n hn => (heq n).trans (hN n hn _)),
      p, 0, [], _, _, rfl, rfl, h1⟩
  | .cons p (.cons c ds cs) beside, parent, prev, p', iter, d, stack, loop, calls, hhead, hl, hp,
      h => by
      cases hhead
      obtain ⟨iter0, d', hd, hready, heq⟩ := h
      obtain ⟨iter1, h1, N, hN⟩ := hready.visit_node hl hp d'
      rw [if_pos hd] at h1
      have hcalm := calm_of hl.2.1.1.1 hp.1.1
      obtain ⟨iter2, hstep, hat⟩ :=
        Arrives.first (f := .cons c ds cs) rfl hl.2.1 hp.2.1 (h1.arrives_zero hcalm)
      exact ⟨iter2, hstep.of_eq (N := N) fun n hn => (heq n).trans (hN n hn _), hat.of_below⟩

/-- A step without a further sibling goes up. -/
theorem Stands.defers_up {iter : PlayTreeIter} {p parent : Nat} {x : Int} {stack : List Int}
    {loop d d' : Int} {calls : List ConfigCall} (hroot : (heap root).parent = none)
    (h : Stands heap root config iter p (x :: stack) loop calls)
    (hparent : (heap p).parent = some parent) (hrnd : (heap parent).rnd = false)
    (hloop : (heap parent).loop = 0) (haim : playTreeIterAim heap p d = (none, d')) :
    ∃ iter' loop' calls', Stands heap root config iter' parent stack loop' calls' ∧
      Defers rand iter d iter' d' := by
  have hcalm := calm_of hparent hrnd
  obtain ⟨iter', h', hup⟩ := (h.ready hcalm).up (d := d') hroot hparent rfl
    (fun hcond => hcond.1 hloop)
  refine ⟨iter', _, _, h', fun ret t ht => ht.of_eq (N := 0) fun n _ => ?_⟩
  rw [h.step_eq hcalm, haim]
  exact hup n _

/-- A step forward goes to the next leaf, or from the last leaf on from the last
tree. -/
theorem At.forward (hroot : (heap root).parent = none) : ∀ {f : Forest Nat}
    {parent prev : Option Nat} {p k : Nat} {iter : PlayTreeIter} {stack : List Int},
    f.head? = some p → (playTreeLinks heap).Linked parent prev f → Playable heap f →
      Loopless heap f → (∀ q, parent = some q → (heap q).rnd = false) →
      At heap root config f iter k stack →
      (∃ iter', IterStep rand iter 1 .entry iter' ∧ At heap root config f iter' (k + 1) stack) ∨
        (k + 1 = f.leaves.length ∧ ∃ iter' loop calls,
          Stands heap root config iter' (f.lastOr p) stack loop calls ∧
          Defers rand iter 1 iter' 1)
  | .nil, _, _, _, _, _, _, hhead, _, _, _, _, _ => by cases hhead
  | .cons p below beside, parent, prev, p', k, iter, stack, hhead, hl, hp, hloop, hparent, h => by
    cases hhead
    have hlen : (Forest.cons p below beside).leaves.length
        = width p below + beside.leaves.length := by
      rw [leaves_cons, List.length_append, width]
    by_cases hk : k < width p below
    · -- Inside the item, or at its end and on to the siblings.
      have hitem : (∃ iter', IterStep rand iter 1 .entry iter' ∧
            At heap root config (.cons p below beside) iter' (k + 1) stack) ∨
          (k + 1 = width p below ∧ ∃ iter' loop calls,
            Stands heap root config iter' p stack loop calls ∧ Defers rand iter 1 iter' 1) := by
        rcases h.below_or hk with ⟨rfl, rfl, loop, calls, hs⟩ | ⟨c, x, hc, hat⟩
        · exact Or.inr ⟨rfl, iter, loop, calls, hs, Defers.refl _ _⟩
        · have hrnd : ∀ q, some p = some q → (heap q).rnd = false := calm_of rfl hp.1.1
          rcases At.forward hroot hc hl.2.1 hp.2.1 hloop.2.1 hrnd hat with
            ⟨iter', hstep, hat'⟩ | ⟨hend, iter1, loop1, calls1, h1, hd1⟩
          · exact Or.inl ⟨iter', hstep, hat'.of_below⟩
          · rw [← width_below p hc] at hend
            cases below with
            | nil => cases hc
            | cons c' ds cs =>
              cases hc
              obtain ⟨hlast, hnext⟩ := hl.2.1.last
              have haim : playTreeIterAim heap (cs.lastOr c) 1 = (none, 1) := by
                have hnone : (heap (cs.lastOr c)).next = none := hnext
                rw [playTreeIterAim_one, hnone]
              obtain ⟨iter2, loop2, calls2, h2, hd2⟩ :=
                Stands.defers_up hroot h1 hlast hp.1.1 hloop.1 haim
              exact Or.inr ⟨hend, iter2, loop2, calls2, h2, hd1.trans hd2⟩
      rcases hitem with hstep | ⟨hend, iter1, loop1, calls1, h1, hd1⟩
      · exact Or.inl hstep
      · cases beside with
        | nil =>
          refine Or.inr ⟨?_, iter1, loop1, calls1, h1, hd1⟩
          rw [hlen, hend]
          rfl
        | cons b es bs =>
          have hcalm : ∀ q, (heap p).parent = some q → (heap q).rnd = false :=
            fun q hq => hparent q (hl.1.1.symm.trans hq)
          obtain ⟨iter2, hstep, hat⟩ := Arrives.first (f := .cons b es bs) rfl hl.2.2 hp.2.2
            (h1.arrives_next hcalm hl.1.2.2.2)
          refine Or.inl ⟨iter2, hd1 _ _ hstep, ?_⟩
          rw [hend]
          exact hat.of_beside
    · obtain ⟨j, hj⟩ : ∃ j, k = width p below + j := ⟨k - width p below, by omega⟩
      have hat := h.beside (by omega)
      have hsub : k - width p below = j := by omega
      rw [hsub] at hat
      cases beside with
      | nil => exact absurd hat.lt (Nat.not_lt_zero _)
      | cons b es bs =>
        rcases At.forward hroot rfl hl.2.2 hp.2.2 hloop.2.2 hparent hat with
          ⟨iter', hstep, hat'⟩ | ⟨hend, hlast⟩
        · refine Or.inl ⟨iter', hstep, ?_⟩
          rw [hj, Nat.add_assoc]
          exact hat'.of_beside
        · exact Or.inr ⟨by omega, hlast⟩

/-- A step back goes to the leaf that `leafBefore` says, or on from the first tree. -/
theorem At.backward (hroot : (heap root).parent = none) : ∀ {f : Forest Nat}
    {parent prev : Option Nat} {p k : Nat} {iter : PlayTreeIter} {stack : List Int},
    f.head? = some p → (playTreeLinks heap).Linked parent prev f → Playable heap f →
      Loopless heap f → (∀ q, parent = some q → (heap q).rnd = false) →
      At heap root config f iter k stack →
      (∃ j iter', leafBefore f k = some j ∧ IterStep rand iter (-1) .entry iter' ∧
          At heap root config f iter' j stack) ∨
        (leafBefore f k = none ∧ ∃ iter' loop calls,
          Stands heap root config iter' p stack loop calls ∧ Defers rand iter (-1) iter' (-1))
  | .nil, _, _, _, _, _, _, hhead, _, _, _, _, _ => by cases hhead
  | .cons p below beside, parent, prev, p', k, iter, stack, hhead, hl, hp, hloop, hparent, h => by
    cases hhead
    rw [leafBefore]
    by_cases hk : k < width p below
    · rw [if_pos hk]
      rcases h.below_or hk with ⟨rfl, rfl, loop, calls, hs⟩ | ⟨c, x, hc, hat⟩
      · exact Or.inr ⟨rfl, iter, loop, calls, hs, Defers.refl _ _⟩
      · have hrnd : ∀ q, some p = some q → (heap q).rnd = false := calm_of rfl hp.1.1
        rcases At.backward hroot hc hl.2.1 hp.2.1 hloop.2.1 hrnd hat with
          ⟨j, iter', hj, hstep, hat'⟩ | ⟨hnone, iter1, loop1, calls1, h1, hd1⟩
        · exact Or.inl ⟨j, iter', hj, hstep, hat'.of_below⟩
        · cases below with
          | nil => cases hc
          | cons c' ds cs =>
            cases hc
            have haim : playTreeIterAim heap c (-1) = (none, -1) := by
              have hprev : (heap c).prev = none := hl.2.1.1.2.1
              rw [playTreeIterAim_neg_one, hprev]
            obtain ⟨iter2, loop2, calls2, h2, hd2⟩ :=
              Stands.defers_up hroot h1 hl.2.1.1.1 hp.1.1 hloop.1 haim
            exact Or.inr ⟨hnone, iter2, loop2, calls2, h2, hd1.trans hd2⟩
    · rw [if_neg hk]
      have hat := h.beside (by omega)
      cases beside with
      | nil => exact absurd hat.lt (Nat.not_lt_zero _)
      | cons b es bs =>
        rcases At.backward hroot rfl hl.2.2 hp.2.2 hloop.2.2 hparent hat with
          ⟨j, iter', hj, hstep, hat'⟩ | ⟨hnone, iter1, loop1, calls1, h1, hd1⟩
        · rw [hj]
          exact Or.inl ⟨_, iter', rfl, hstep, hat'.of_beside⟩
        · -- Back into the item before: to the first leaf of its last child.
          rw [hnone]
          have hcalm : ∀ q, (heap b).parent = some q → (heap q).rnd = false :=
            fun q hq => hparent q (hl.2.2.1.1.symm.trans hq)
          have hprev : (heap b).prev = some p := hl.2.2.1.2.1
          have hready := h1.ready hcalm
          have heq : ∀ n, playTreeIterStep rand false (n + 1) iter1 (-1)
              = playTreeIterVisit (playTreeIterStep rand false n) n
                  (playTreeIterReady iter1 b) p (-1) false := by
            intro n
            rw [h1.step_eq hcalm, playTreeIterAim_neg_one, hprev]
          cases below with
          | nil =>
            obtain ⟨iter2, h2, N, hN⟩ := hready.visit_entry hl hp (-1)
            have hstep : IterStep rand iter1 (-1) .entry iter2 :=
              IterStep.of_some (N := N) fun n hn => (heq n).trans (hN n hn _)
            exact Or.inl ⟨0, iter2, rfl, hd1 _ _ hstep, p, 0, [], _, _, rfl, rfl, h2⟩
          | cons c ds cs =>
            obtain ⟨iter2, h2, N, hN⟩ := hready.visit_node hl hp (-1)
            rw [if_neg (by decide)] at h2
            obtain ⟨es', hlastTree⟩ := Forest.lastTree_head c ds cs
            obtain ⟨prev', hl'⟩ := hl.2.1.lastTree
            have hlast : (heap (cs.lastOr c)).parent = some p := hl.2.1.last.1
            have hcalm' := calm_of hlast hp.1.1
            obtain ⟨iter3, hstep, hat3⟩ := Arrives.first (by rw [hlastTree]; rfl) hl'
              hp.2.1.lastTree
              (h2.arrives_zero hcalm')
            have hstep1 : IterStep rand iter1 (-1) .entry iter3 :=
              hstep.of_eq (N := N) fun n hn => (heq n).trans (hN n hn _)
            exact Or.inl ⟨_, iter3, rfl, hd1 _ _ hstep1, hat3.of_lastTree.of_below⟩

/-! ## The whole tree -/

/-- The first step on a tree has stopped at an entry. -/
def Started (rand : Nat → Nat → Nat) (heap : Nat → PlayTree) (root : Nat) (config : Bool)
    (iter : PlayTreeIter) : Prop :=
  IterStep rand (playTreeIterNew heap root config) 0 .entry iter

/-- A step forward or back that stops at an entry. -/
def EntryStep (rand : Nat → Nat → Nat) (s : PlayTreeIter) (d : Int) (t : PlayTreeIter) : Prop :=
  (d = 1 ∨ d = -1) ∧ IterStep rand s d .entry t

/-- From every entry that an iterator can come to, a step back undoes a step
forward. -/
def StepsUndone (rand : Nat → Nat → Nat) (heap : Nat → PlayTree) (root : Nat) (config : Bool) :
    Prop :=
  ∀ s t, Reachable (EntryStep rand) (Started rand heap root config) s →
    IterStep rand s 1 .entry t → ∃ u, IterStep rand t (-1) .entry u ∧ u.tree = s.tree

/-- From the last entry, steps back visit the entries `ps` in reverse order. -/
def VisitsReversed (rand : Nat → Nat → Nat) (heap : Nat → PlayTree) (root : Nat) (config : Bool)
    (ps : List Nat) : Prop :=
  ∀ s t, Reachable (EntryStep rand) (Started rand heap root config) s →
    IterStep rand s 1 .finish t → ∃ u, Visits rand (-1) s (-1) ps.dropLast.reverse .finish u

variable {below : Forest Nat}

/-- The iterator has left the tree. -/
theorem Stands.finish {iter : PlayTreeIter} {loop d : Int} {calls : List ConfigCall}
    (hroot : (heap root).parent = none) (h : Stands heap root config iter root [] loop calls)
    (haim : playTreeIterAim heap root d = (none, d)) :
    ∃ iter', IterStep rand iter d .finish iter' := by
  have hcalm := calm_of_none heap hroot
  obtain ⟨iter', -, -, hfinish⟩ := (h.ready hcalm).finish hroot hroot d
  refine ⟨iter', IterStep.of_some (N := 0) fun n _ => ?_⟩
  rw [h.step_eq hcalm, haim]
  exact hfinish n _

variable (rand)

theorem At.forward_root (hl : (playTreeLinks heap).Linked none none (.cons root below .nil))
    (hp : Playable heap (.cons root below .nil)) (hloop : Loopless heap (.cons root below .nil))
    {s : PlayTreeIter} {k : Nat} (h : At heap root config (.cons root below .nil) s k []) :
    (∃ t, IterStep rand s 1 .entry t ∧ At heap root config (.cons root below .nil) t (k + 1) []) ∨
      (k + 1 = (Forest.cons root below .nil).leaves.length ∧ ∃ t, IterStep rand s 1 .finish t) := by
  rcases At.forward hl.1.1 rfl hl hp hloop (fun q hq => by cases hq) h with
    hstep | ⟨hend, iter', loop, calls, h', hd⟩
  · exact Or.inl hstep
  · have haim : playTreeIterAim heap root 1 = (none, 1) := by
      have hnext : (heap root).next = none := hl.1.2.2.2
      rw [playTreeIterAim_one, hnext]
    obtain ⟨t, ht⟩ := Stands.finish hl.1.1 h' haim
    exact Or.inr ⟨hend, t, hd _ _ ht⟩

theorem At.backward_root (hl : (playTreeLinks heap).Linked none none (.cons root below .nil))
    (hp : Playable heap (.cons root below .nil)) (hloop : Loopless heap (.cons root below .nil))
    {s : PlayTreeIter} {k : Nat} (h : At heap root config (.cons root below .nil) s k []) :
    (∃ j t, leafBefore (.cons root below .nil) k = some j ∧ IterStep rand s (-1) .entry t ∧
        At heap root config (.cons root below .nil) t j []) ∨
      (leafBefore (.cons root below .nil) k = none ∧ ∃ t, IterStep rand s (-1) .finish t) := by
  rcases At.backward hl.1.1 rfl hl hp hloop (fun q hq => by cases hq) h with
    hstep | ⟨hnone, iter', loop, calls, h', hd⟩
  · exact Or.inl hstep
  · have haim : playTreeIterAim heap root (-1) = (none, -1) := by
      have hprev : (heap root).prev = none := hl.1.2.1
      rw [playTreeIterAim_neg_one, hprev]
    obtain ⟨t, ht⟩ := Stands.finish hl.1.1 h' haim
    exact Or.inr ⟨hnone, t, hd _ _ ht⟩

/-- The first step stops at the first leaf. -/
theorem started (hl : (playTreeLinks heap).Linked none none (.cons root below .nil))
    (hp : Playable heap (.cons root below .nil)) :
    ∃ s, Started rand heap root config s ∧ At heap root config (.cons root below .nil) s 0 [] := by
  have hroot : (heap root).parent = none := hl.1.1
  have hcalm := calm_of_none heap hroot
  have h0 : Stands heap root config { playTreeIterNew heap root config with tree := some root }
      root [] 0 [] := by
    refine ⟨rfl, rfl, rfl, rfl, rfl, ?_, ?_⟩
    · simp [playTreeIterNew, hroot]
    · simp [playTreeIterNew, playTreeIterPopEntry]
  obtain ⟨s, hs, hat⟩ := Arrives.first rfl hl hp (h0.arrives_zero hcalm)
  exact ⟨s, hs.of_eq (N := 0) fun _ _ => rfl, hat⟩

/-- An iterator that has stopped at an entry stands at a leaf. -/
theorem at_of_reachable (hl : (playTreeLinks heap).Linked none none (.cons root below .nil))
    (hp : Playable heap (.cons root below .nil)) (hloop : Loopless heap (.cons root below .nil))
    {s : PlayTreeIter} (hs : Reachable (EntryStep rand) (Started rand heap root config) s) :
    ∃ k, At heap root config (.cons root below .nil) s k [] := by
  refine hs.invariant (I := fun s => ∃ k, At heap root config (.cons root below .nil) s k [])
    (fun s h0 => ?_) (fun s d t hat hst => ?_)
  · obtain ⟨s', hs', hat⟩ := started rand hl hp
    cases Returns.unique h0 hs'
    exact ⟨0, hat⟩
  · obtain ⟨k, hat⟩ := hat
    obtain ⟨rfl | rfl, hst⟩ := hst
    · rcases hat.forward_root rand hl hp hloop with ⟨t', ht', hat'⟩ | ⟨-, t', ht'⟩
      · cases Returns.unique hst ht'
        exact ⟨_, hat'⟩
      · cases Returns.unique hst ht'
    · rcases hat.backward_root rand hl hp hloop with ⟨j, t', -, ht', hat'⟩ | ⟨-, t', ht'⟩
      · cases Returns.unique hst ht'
        exact ⟨_, hat'⟩
      · cases Returns.unique hst ht'

/-- Every leaf is reached. -/
theorem reachable_leaf (config : Bool)
    (hl : (playTreeLinks heap).Linked none none (.cons root below .nil))
    (hp : Playable heap (.cons root below .nil)) (hloop : Loopless heap (.cons root below .nil)) :
    ∀ k, k < (Forest.cons root below .nil).leaves.length →
      ∃ s, Reachable (EntryStep rand) (Started rand heap root config) s ∧
        At heap root config (.cons root below .nil) s k []
  | 0, _ => by
    obtain ⟨s, hs, hat⟩ := started rand hl hp
    exact ⟨s, ⟨s, [], hs, .refl⟩, hat⟩
  | k + 1, hk => by
    obtain ⟨s, hs, hat⟩ := reachable_leaf config hl hp hloop k (by omega)
    rcases hat.forward_root rand hl hp hloop with ⟨t, ht, hat'⟩ | ⟨hend, -⟩
    · exact ⟨t, hs.extend ⟨Or.inl rfl, ht⟩, hat'⟩
    · omega

/-- A step back stops at leaf `k` only if `leafBefore` says so. -/
theorem At.back_to (hl : (playTreeLinks heap).Linked none none (.cons root below .nil))
    (hp : Playable heap (.cons root below .nil)) (hloop : Loopless heap (.cons root below .nil))
    {s u : PlayTreeIter} {i k p d : Nat} (h : At heap root config (.cons root below .nil) s i [])
    (hstep : IterStep rand s (-1) .entry u) (htree : u.tree = some p)
    (hk : (Forest.cons root below .nil).leaves[k]? = some (p, d)) :
    leafBefore (.cons root below .nil) i = some k ∧
      At heap root config (.cons root below .nil) u k [] := by
  rcases h.backward_root rand hl hp hloop with ⟨j, t, hj, ht, hat⟩ | ⟨-, t, ht⟩
  · cases Returns.unique hstep ht
    have hjk : j = k := by
      obtain ⟨q, d', front, loop, calls, hq, -, hs⟩ := id hat
      cases htree.symm.trans hs.tree_eq
      have hnodup := (hl.nodup .nil).sublist (Forest.leaves_sublist _)
      have hjlt := (List.getElem?_eq_some_iff.mp hq).1
      refine (List.getElem?_inj (by rw [List.length_map]; exact hjlt) hnodup).mp ?_
      rw [List.getElem?_map, List.getElem?_map, hq, hk]
      rfl
    subst hjk
    exact ⟨hj, hat⟩
  · cases Returns.unique hstep ht

/-- In a retraceable tree steps back from leaf `k` visit the leaves before it. -/
theorem At.visits_back (hl : (playTreeLinks heap).Linked none none (.cons root below .nil))
    (hp : Playable heap (.cons root below .nil)) (hloop : Loopless heap (.cons root below .nil))
    (hr : Retraceable (.cons root below .nil)) : ∀ {k : Nat} {s : PlayTreeIter},
    At heap root config (.cons root below .nil) s k [] →
      ∃ u, Visits rand (-1) s (-1)
        (((Forest.cons root below .nil).leaves.map Prod.fst).take k).reverse .finish u
  | 0, s, h => by
    rcases h.backward_root rand hl hp hloop with ⟨j, t, hj, -, -⟩ | ⟨-, t, ht⟩
    · rw [leafBefore_zero] at hj
      cases hj
    · exact ⟨t, .stop ht (by decide)⟩
  | k + 1, s, h => by
    have hback := (retraceable_iff _).mp hr k h.lt
    rcases h.backward_root rand hl hp hloop with ⟨j, t, hj, ht, hat⟩ | ⟨hnone, -⟩
    · cases hj.symm.trans hback
      obtain ⟨u, hu⟩ := At.visits_back hl hp hloop hr hat
      obtain ⟨p, d, front, loop, calls, hk, -, hst⟩ := hat
      refine ⟨u, ?_⟩
      rw [List.take_add_one, List.reverse_append, List.getElem?_map, hk]
      exact .entry ht hst.tree_eq hu
    · cases hnone.symm.trans hback

/-- If steps back from leaf `k` visit the leaves before it, then each of them goes to
the leaf before. -/
theorem At.retraces (hl : (playTreeLinks heap).Linked none none (.cons root below .nil))
    (hp : Playable heap (.cons root below .nil)) (hloop : Loopless heap (.cons root below .nil)) :
    ∀ {k : Nat} {s u : PlayTreeIter}, At heap root config (.cons root below .nil) s k [] →
      Visits rand (-1) s (-1)
        (((Forest.cons root below .nil).leaves.map Prod.fst).take k).reverse .finish u →
      ∀ i, i < k → leafBefore (.cons root below .nil) (i + 1) = some i
  | 0, _, _, _, _, i, hi => absurd hi (Nat.not_lt_zero i)
  | k + 1, s, u, h, hv, i, hi => by
    have hlt := h.lt
    obtain ⟨⟨p, d⟩, hk⟩ : ∃ l, (Forest.cons root below .nil).leaves[k]? = some l :=
      ⟨_, List.getElem?_eq_getElem (by omega)⟩
    rw [List.take_add_one, List.reverse_append, List.getElem?_map, hk] at hv
    cases hv with
    | entry hstep htree hrest =>
      obtain ⟨hback, hat⟩ := h.back_to rand hl hp hloop hstep htree hk
      by_cases hik : i = k
      · rw [hik]
        exact hback
      · exact At.retraces hl hp hloop hat hrest i (by omega)

theorem Loopless.times : ∀ {f : Forest Nat}, Loopless heap f →
    ∀ p ∈ f.nodes, max 1 (heap p).loop.toNat = 1
  | .nil, _, _, hp => by cases hp
  | .cons q below beside, h, p, hp => by
    rw [Forest.nodes, List.mem_cons, List.mem_append] at hp
    rcases hp with rfl | hp | hp
    · rw [h.1]
      rfl
    · exact h.2.1.times p hp
    · exact h.2.2.times p hp

/-- Steps back undo steps forward exactly in a retraceable tree. -/
theorem stepsUndone_iff (config : Bool)
    (hl : (playTreeLinks heap).Linked none none (.cons root below .nil))
    (hp : Playable heap (.cons root below .nil)) (hloop : Loopless heap (.cons root below .nil)) :
    StepsUndone rand heap root config ↔ Retraceable (.cons root below .nil) := by
  constructor
  · intro hundone
    refine (retraceable_iff _).mpr fun k hk => ?_
    obtain ⟨s, hs, hat⟩ := reachable_leaf rand config hl hp hloop k (by omega)
    rcases hat.forward_root rand hl hp hloop with ⟨t, ht, hat'⟩ | ⟨hend, -⟩
    · obtain ⟨u, hu, htree⟩ := hundone s t hs ht
      obtain ⟨p, d, front, loop, calls, hleaf, -, hst⟩ := hat
      exact (hat'.back_to rand hl hp hloop hu (htree.trans hst.tree_eq) hleaf).1
    · omega
  · intro hr s t hs ht
    obtain ⟨k, hat⟩ := at_of_reachable rand hl hp hloop hs
    rcases hat.forward_root rand hl hp hloop with ⟨t', ht', hat'⟩ | ⟨-, t', ht'⟩
    · cases Returns.unique ht ht'
      have hback := (retraceable_iff _).mp hr k hat'.lt
      rcases hat'.backward_root rand hl hp hloop with ⟨j, u, hj, hu, hatu⟩ | ⟨hnone, -⟩
      · cases hj.symm.trans hback
        obtain ⟨p, d, front, loop, calls, hleaf, -, hst⟩ := hat
        obtain ⟨p', d', front', loop', calls', hleaf', -, hst'⟩ := hatu
        cases hleaf.symm.trans hleaf'
        exact ⟨u, hu, hst'.tree_eq.trans hst.tree_eq.symm⟩
      · cases hnone.symm.trans hback
    · cases Returns.unique ht ht'

/-- Steps back visit the entries in reverse order exactly in a retraceable tree. -/
theorem visitsReversed_iff (config : Bool)
    (hl : (playTreeLinks heap).Linked none none (.cons root below .nil))
    (hp : Playable heap (.cons root below .nil)) (hloop : Loopless heap (.cons root below .nil)) :
    VisitsReversed rand heap root config
        ((Forest.cons root below .nil).expand fun p => max 1 (heap p).loop.toNat) ↔
      Retraceable (.cons root below .nil) := by
  rw [Forest.expand_once _ hloop.times]
  have hpos := Forest.leaves_pos (f := .cons root below .nil) rfl
  have htake : ∀ k, k + 1 = (Forest.cons root below .nil).leaves.length →
      ((Forest.cons root below .nil).leaves.map Prod.fst).dropLast
        = ((Forest.cons root below .nil).leaves.map Prod.fst).take k := by
    intro k hk
    rw [List.dropLast_eq_take, List.length_map, ← hk, Nat.add_sub_cancel]
  constructor
  · intro hreversed
    obtain ⟨n, hn⟩ : ∃ n, n + 1 = (Forest.cons root below .nil).leaves.length :=
      ⟨_, Nat.sub_add_cancel hpos⟩
    obtain ⟨s, hs, hat⟩ := reachable_leaf rand config hl hp hloop n (by omega)
    rcases hat.forward_root rand hl hp hloop with ⟨t, -, hat'⟩ | ⟨-, t, ht⟩
    · have hlt := hat'.lt
      omega
    · obtain ⟨u, hu⟩ := hreversed s t hs ht
      rw [htake n hn] at hu
      refine (retraceable_iff _).mpr fun k hk => ?_
      exact hat.retraces rand hl hp hloop hu k (by omega)
  · intro hr s t hs ht
    obtain ⟨k, hat⟩ := at_of_reachable rand hl hp hloop hs
    rcases hat.forward_root rand hl hp hloop with ⟨t', ht', -⟩ | ⟨hend, -⟩
    · cases Returns.unique ht ht'
    · rw [htake k hend]
      exact hat.visits_back rand hl hp hloop hr

/-- A step back undoes a step forward from every entry that can be reached, and steps
back from the last entry visit the entries in reverse order, exactly if every item
before another one is an entry or its last child has a single entry. -/
theorem play_tree_backward (config : Bool)
    (hl : (playTreeLinks heap).Linked none none (.cons root below .nil))
    (hp : Playable heap (.cons root below .nil)) (hloop : Loopless heap (.cons root below .nil)) :
    (StepsUndone rand heap root config ↔ Retraceable (.cons root below .nil)) ∧
      (VisitsReversed rand heap root config
          ((Forest.cons root below .nil).expand fun p => max 1 (heap p).loop.toNat) ↔
        Retraceable (.cons root below .nil)) :=
  ⟨stepsUndone_iff rand config hl hp hloop, visitsReversed_iff rand config hl hp hloop⟩

/-- One level of nesting is retraced. -/
theorem play_tree_backward_flat :
    StepsUndone (fun _ _ => 0) (loopHeap 0) 0 true ↔ Retraceable (.cons 0 loopForest .nil) :=
  (play_tree_backward (fun _ _ => 0) true (loopHeap_linked 0) (loopHeap_playable (Int.le_refl 0))
    ⟨rfl, ⟨rfl, ⟨rfl, trivial, rfl, trivial, trivial⟩, rfl, trivial, trivial⟩, trivial⟩).1

/-- Two files in a node in a node, and a third one behind it. -/
def nestedHeap : Nat → PlayTree
  | 0 => playNode none (some 1) none none 0
  | 1 => playNode (some 0) (some 2) (some 5) none 0
  | 2 => playNode (some 1) (some 3) none none 0
  | 3 => playEntry (some 2) (some 4) none "a"
  | 4 => playEntry (some 2) none (some 3) "b"
  | _ => playEntry (some 0) none (some 1) "c"

/-- The shape of `nestedHeap`. -/
def nestedForest : Forest Nat :=
  .cons 1 (.cons 2 (.cons 3 .nil (.cons 4 .nil .nil)) .nil) (.cons 5 .nil .nil)

/-- With two levels of nesting a step back from the third file goes to the first one,
and so neither undoes the step forward nor visits the files in reverse order. -/
theorem play_tree_backward_nested :
    ((playTreeLinks nestedHeap).Linked none none (.cons 0 nestedForest .nil) ∧
        Playable nestedHeap (.cons 0 nestedForest .nil) ∧
        Loopless nestedHeap (.cons 0 nestedForest .nil)) ∧
      ¬ StepsUndone (fun _ _ => 0) nestedHeap 0 true ∧
      ¬ VisitsReversed (fun _ _ => 0) nestedHeap 0 true [3, 4, 5] := by
  have hl : (playTreeLinks nestedHeap).Linked none none (.cons 0 nestedForest .nil) := by
    simp [Links.Linked, nestedForest, playTreeLinks, nestedHeap, playNode, playEntry, Forest.head?]
  have hp : Playable nestedHeap (.cons 0 nestedForest .nil) := by
    simp [Playable, nestedForest, nestedHeap, playNode, playEntry, Forest.head?]
  have hloop : Loopless nestedHeap (.cons 0 nestedForest .nil) := by
    simp [Loopless, nestedForest, nestedHeap, playNode, playEntry]
  have hbad : ¬ Retraceable (.cons 0 nestedForest .nil) := by
    simp [Retraceable, nestedForest, Forest.head?, Forest.lastTree, Forest.leaves]
  refine ⟨⟨hl, hp, hloop⟩, fun h => hbad ?_, fun h => hbad ?_⟩
  · exact (stepsUndone_iff _ true hl hp hloop).mp h
  · exact (visitsReversed_iff _ true hl hp hloop).mp h

end MPlayer
