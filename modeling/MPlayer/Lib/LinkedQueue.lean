import Mathlib.Data.List.Basic

/-!
# Linked queues

Cells of a heap are linked by a `next` map.  `Listed` follows the links from a
first cell to their end, and lists the addresses passed with the values there.
`LinkedQueue` is such a list with a pointer to its last cell, as a queue that is
read at one end and written at the other keeps it.

A list that ends passes no address twice (`Listed.nodup`), so a write to the last
cell changes no other cell of the queue (`LinkedQueue.push`).
-/

namespace Lib

universe u v

variable {α : Type u} {β : Type v} {next : α → Option Nat} {val : α → β}
  {cells cells' : Nat → Option α} {first last : Option Nat} {xs ys : List (Nat × β)}

/-! ## Lists of cells -/

/-- The links from `first` pass exactly the addresses and values of `xs`, and end. -/
def Listed (next : α → Option Nat) (val : α → β) (cells : Nat → Option α) :
    Option Nat → List (Nat × β) → Prop
  | first, [] => first = none
  | first, x :: xs => first = some x.1 ∧
      ∃ c, cells x.1 = some c ∧ val c = x.2 ∧ Listed next val cells (next c) xs

theorem Listed.unique : ∀ {xs ys : List (Nat × β)} {first : Option Nat},
    Listed next val cells first xs → Listed next val cells first ys → xs = ys
  | [], [], _, _, _ => rfl
  | [], y :: ys, _, h, h' => by cases h.symm.trans h'.1
  | x :: xs, [], _, h, h' => by cases h'.symm.trans h.1
  | (p, v) :: xs, (q, w) :: ys, _, h, h' => by
    obtain ⟨hx, c, hc, hv, hrest⟩ := h
    obtain ⟨hy, c', hc', hw, hrest'⟩ := h'
    cases Option.some.inj (hx.symm.trans hy)
    cases Option.some.inj (hc.symm.trans hc')
    have hvw : v = w := hv.symm.trans hw
    rw [Listed.unique hrest hrest', hvw]

/-- What is left of a list at a cell it passes is the list from that cell. -/
theorem Listed.of_append : ∀ {xs : List (Nat × β)} {y : Nat × β} {ys : List (Nat × β)}
    {first : Option Nat}, Listed next val cells first (xs ++ y :: ys) →
      Listed next val cells (some y.1) (y :: ys)
  | [], _, _, _, h => ⟨rfl, h.2⟩
  | _ :: _, _, _, _, h => by
    obtain ⟨_, c, _, _, hrest⟩ := h
    exact Listed.of_append hrest

/-- A list that ends passes no address twice. -/
theorem Listed.nodup : ∀ {xs : List (Nat × β)} {first : Option Nat},
    Listed next val cells first xs → (xs.map Prod.fst).Nodup
  | [], _, _ => List.nodup_nil
  | x :: xs, _, h => by
    obtain ⟨hfirst, c, hc, hv, hrest⟩ := h
    rw [List.map_cons, List.nodup_cons]
    refine ⟨?_, Listed.nodup hrest⟩
    intro hmem
    obtain ⟨y, hy, hyx⟩ := List.mem_map.mp hmem
    obtain ⟨front, back, hsplit⟩ := List.append_of_mem hy
    have hagain : Listed next val cells (some x.1) (y :: back) := by
      rw [hsplit] at hrest
      rw [← hyx]
      exact hrest.of_append
    have hloop : Listed next val cells (some x.1) (x :: xs) := ⟨rfl, c, hc, hv, hrest⟩
    have hlength := congrArg List.length (hloop.unique hagain)
    simp only [hsplit, List.length_cons, List.length_append] at hlength
    omega

/-- A list depends only on the cells it passes. -/
theorem Listed.congr : ∀ {xs : List (Nat × β)} {first : Option Nat},
    Listed next val cells first xs → (∀ x ∈ xs, cells' x.1 = cells x.1) →
      Listed next val cells' first xs
  | [], _, h, _ => h
  | x :: xs, _, h, hcells => by
    obtain ⟨hfirst, c, hc, hv, hrest⟩ := h
    refine ⟨hfirst, c, ?_, hv, hrest.congr fun y hy => hcells y (List.mem_cons_of_mem x hy)⟩
    rw [hcells x List.mem_cons_self, hc]

/-- A list extended by linking its last cell `q` to a cell `n` at the end. -/
theorem Listed.link {q n : Nat} {c c' d : α} {w : β} (hc : cells q = some c)
    (hc' : cells' q = some c') (hval : val c' = val c) (hnext : next c' = some n)
    (hd : cells' n = some d) (hend : next d = none) :
    ∀ {xs : List (Nat × β)} {first : Option Nat},
    Listed next val cells first (xs ++ [(q, w)]) → (∀ x ∈ xs, cells' x.1 = cells x.1) →
      Listed next val cells' first (xs ++ [(q, w)] ++ [(n, val d)])
  | [], _, h, _ => by
    obtain ⟨hfirst, e, he, hv, -⟩ := h
    cases Option.some.inj (he.symm.trans hc)
    exact ⟨hfirst, c', hc', hval.trans hv, hnext, d, hd, rfl, hend⟩
  | x :: xs, _, h, hcells => by
    obtain ⟨hfirst, e, he, hv, hrest⟩ := h
    refine ⟨hfirst, e, ?_, hv, ?_⟩
    · rw [hcells x List.mem_cons_self, he]
    · exact Listed.link hc hc' hval hnext hd hend hrest
        fun y hy => hcells y (List.mem_cons_of_mem x hy)

/-! ## Queues -/

/-- A list of cells from `first`, with `last` at its last cell. -/
structure LinkedQueue (next : α → Option Nat) (val : α → β) (cells : Nat → Option α)
    (first last : Option Nat) (xs : List (Nat × β)) : Prop where
  listed : Listed next val cells first xs
  last_eq : last = xs.getLast?.map Prod.fst

namespace LinkedQueue

theorem last_none_iff (h : LinkedQueue next val cells first last xs) :
    last = none ↔ first = none := by
  cases xs with
  | nil => exact ⟨fun _ => h.listed, fun _ => h.last_eq⟩
  | cons x xs =>
    have hlast : last ≠ none := by
      rw [h.last_eq, List.getLast?_cons]
      simp
    exact ⟨fun hl => absurd hl hlast, fun hf => by cases h.listed.1.symm.trans hf⟩

theorem first_none_iff (h : LinkedQueue next val cells first last xs) :
    first = none ↔ xs = [] := by
  cases xs with
  | nil => exact ⟨fun _ => rfl, fun _ => h.listed⟩
  | cons x xs => exact ⟨fun hf => (by cases h.listed.1.symm.trans hf), fun hx => by cases hx⟩

theorem frame (h : LinkedQueue next val cells first last xs)
    (hcells : ∀ x ∈ xs, cells' x.1 = cells x.1) : LinkedQueue next val cells' first last xs :=
  ⟨h.listed.congr hcells, h.last_eq⟩

/-- The last cell, and the queue before it. -/
theorem split_last {q : Nat} (h : LinkedQueue next val cells first (some q) xs) :
    ∃ front w c, xs = front ++ [(q, w)] ∧ cells q = some c := by
  cases hxs : xs.getLast? with
  | none =>
    have hlast := h.last_eq
    rw [hxs] at hlast
    cases hlast
  | some x =>
    have hlast := h.last_eq
    rw [hxs] at hlast
    obtain ⟨p, w⟩ := x
    cases Option.some.inj hlast
    obtain ⟨front, hfront⟩ := List.getLast?_eq_some_iff.mp hxs
    have hlisted := h.listed
    rw [hfront] at hlisted
    obtain ⟨-, c, hc, -⟩ := hlisted.of_append
    exact ⟨front, w, c, hfront, hc⟩

/-- A cell put into an empty queue. -/
theorem push_empty {n : Nat} {d : α} (h : LinkedQueue next val cells first none xs)
    (hd : cells' n = some d) (hend : next d = none) :
    LinkedQueue next val cells' (some n) (some n) (xs ++ [(n, val d)]) := by
  have hxs : xs = [] := h.first_none_iff.mp (h.last_none_iff.mp rfl)
  cases hxs
  exact ⟨⟨rfl, d, hd, rfl, hend⟩, rfl⟩

/-- A cell linked behind the last one. -/
theorem push {q n : Nat} {c e d : α} (h : LinkedQueue next val cells first (some q) xs)
    (hc : cells q = some c) (he : cells' q = some e) (hval : val e = val c)
    (hnext : next e = some n) (hd : cells' n = some d) (hend : next d = none)
    (hcells : ∀ x ∈ xs, x.1 ≠ q → cells' x.1 = cells x.1) :
    LinkedQueue next val cells' first (some n) (xs ++ [(n, val d)]) := by
  obtain ⟨front, w, -, hxs, -⟩ := h.split_last
  subst hxs
  refine ⟨h.listed.link hc he hval hnext hd hend ?_, by simp⟩
  intro x hx
  refine hcells x (List.mem_append_left _ hx) ?_
  intro hxq
  have hnodup := h.listed.nodup
  rw [List.map_append, List.nodup_append] at hnodup
  exact hnodup.2.2 x.1 (List.mem_map_of_mem hx) q (by simp) hxq

/-- The queue behind its first cell. -/
theorem pop {x : Nat × β} (h : LinkedQueue next val cells first last (x :: xs)) :
    ∃ c, first = some x.1 ∧ cells x.1 = some c ∧ val c = x.2 ∧
      LinkedQueue next val cells (next c) (if next c = none then none else last) xs := by
  obtain ⟨hfirst, c, hc, hv, hrest⟩ := h.listed
  refine ⟨c, hfirst, hc, hv, hrest, ?_⟩
  cases xs with
  | nil => exact if_pos hrest
  | cons y ys =>
    rw [if_neg (by rw [hrest.1]; simp), h.last_eq, List.getLast?_cons_cons]

end LinkedQueue

end Lib
