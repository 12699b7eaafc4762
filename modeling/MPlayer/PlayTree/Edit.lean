import MPlayer.PlayTree.Step
import MPlayer.Lib.Relink

/-!
# Building play trees

The operations that make and change play trees, on a heap that knows which nodes were allocated
and which were freed.  Writing to a node that is not allocated, or freeing it, ends in `none`, and
so do loops without an end, which run out of fuel.

The operations are functions of the links (`Links.unlink`, `Links.insertAfter` and so on), which
is what the results here say.
-/

namespace MPlayer

open Lib

/-! ## The heap -/

/-- Nodes `0` to `size - 1` were allocated.  `freed` are those that were freed, the last one
first. -/
structure TreeHeap where
  heap : Nat → PlayTree
  size : Nat
  freed : List Nat

/-- A node that is allocated. -/
def TreeHeap.Live (s : TreeHeap) (n : Nat) : Prop := n < s.size ∧ n ∉ s.freed

instance (s : TreeHeap) (n : Nat) : Decidable (s.Live n) := inferInstanceAs (Decidable (_ ∧ _))

/-- No node is freed yet, nor allocated. -/
def TreeHeap.empty (heap : Nat → PlayTree) : TreeHeap := ⟨heap, 0, []⟩

/-- The pointers of the nodes. -/
def TreeHeap.links (s : TreeHeap) : Links Nat := playTreeLinks s.heap

/-- A write to a node. -/
def TreeHeap.set (s : TreeHeap) (n : Nat) (f : PlayTree → PlayTree) : Option TreeHeap :=
  if s.Live n then some { s with heap := Function.update s.heap n (f (s.heap n)) } else none

/-- A write to the node that a pointer leads to, unless it is `NULL`. -/
def TreeHeap.setIf (s : TreeHeap) (o : Option Nat) (f : PlayTree → PlayTree) : Option TreeHeap :=
  match o with
  | none => some s
  | some n => s.set n f

/-- More turns than any loop takes. -/
def TreeHeap.fuel (s : TreeHeap) : Nat := 2 * s.size + 3

/-! ## Operations -/

/-- `play_tree_new`. -/
def playTreeNew (s : TreeHeap) : TreeHeap :=
  { s with
    heap := Function.update s.heap s.size ⟨none, none, none, none, none, 0, [], .node, false, false⟩
    size := s.size + 1 }

/-- The loop that sets the parent of siblings. -/
def playTreeReparent : Nat → TreeHeap → Option Nat → Option Nat → Option TreeHeap
  | 0, _, _, _ => none
  | _ + 1, s, none, _ => some s
  | fuel + 1, s, some iter, parent => do
    let s ← s.set iter fun c => { c with parent := parent }
    playTreeReparent fuel s (s.heap iter).next parent

/-- The loop that sets the parent of a node and those before it, which ends at the first one. -/
def playTreeReparentBack : Nat → TreeHeap → Nat → Nat → Option (TreeHeap × Nat)
  | 0, _, _, _ => none
  | fuel + 1, s, iter, parent => do
    let s ← s.set iter fun c => { c with parent := some parent }
    match (s.heap iter).prev with
    | none => some (s, iter)
    | some prev => playTreeReparentBack fuel s prev parent

/-- `play_tree_append_entry`. -/
def playTreeAppendEntry (s : TreeHeap) (pt entry : Nat) : Option TreeHeap :=
  if pt = entry then some s
  else do
    let iter ← playTreeFarthest (fun n => (s.heap n).next) s.fuel pt
    let s ← s.set entry fun c =>
      { c with parent := (s.heap iter).parent, prev := some iter, next := none }
    s.set iter fun c => { c with next := some entry }

/-- `play_tree_prepend_entry`. -/
def playTreePrependEntry (s : TreeHeap) (pt entry : Nat) : Option TreeHeap := do
  let iter ← playTreeFarthest (fun n => (s.heap n).prev) s.fuel pt
  let s ← s.set entry fun c =>
    { c with prev := none, next := some iter, parent := (s.heap iter).parent }
  let s ← s.set iter fun c => { c with prev := some entry }
  s.setIf (s.heap entry).parent fun c => { c with child := some entry }

/-- `play_tree_insert_entry`. -/
def playTreeInsertEntry (s : TreeHeap) (pt entry : Nat) : Option TreeHeap := do
  let s ← s.set entry fun c => { c with parent := (s.heap pt).parent, prev := some pt }
  let s ← match (s.heap pt).next with
    | some next => do
      let s ← s.set entry fun c => { c with next := some next }
      s.set next fun c => { c with prev := some entry }
    | none => s.set entry fun c => { c with next := none }
  s.set pt fun c => { c with next := some entry }

/-- `play_tree_remove` without the call of `play_tree_free`. -/
def playTreeUnlink (s : TreeHeap) (pt : Nat) : Option TreeHeap := do
  let s ← match (s.heap pt).prev, (s.heap pt).next with
    -- middle of list
    | some prev, some next => do
      let s ← s.set prev fun c => { c with next := some next }
      s.set next fun c => { c with prev := some prev }
    -- end of list
    | some prev, none => s.set prev fun c => { c with next := none }
    -- beginning of list
    | none, some next => do
      let s ← s.set next fun c => { c with prev := none }
      s.setIf (s.heap pt).parent fun c => { c with child := some next }
    -- the only one
    | none, none => s.setIf (s.heap pt).parent fun c => { c with child := none }
  s.set pt fun c => { c with prev := none, next := none, parent := none }

/-- `play_tree_free` behind the loop that frees the children. -/
def playTreeDrop (s : TreeHeap) (pt : Nat) : Option TreeHeap := do
  let s ← playTreeUnlink s pt
  let s ← playTreeReparent s.fuel s (s.heap pt).child none
  if s.Live pt then some { s with freed := pt :: s.freed } else none

mutual

/-- `play_tree_free` of a node. -/
def playTreeFree : Nat → TreeHeap → Nat → Bool → Option TreeHeap
  | 0, _, _, _ => none
  | fuel + 1, s, pt, children => do
    let s ← if children then do
        let s ← playTreeFreeLoop fuel s (s.heap pt).child
        s.set pt fun c => { c with child := none }
      else some s
    playTreeDrop s pt

/-- The loop that frees the children. -/
def playTreeFreeLoop : Nat → TreeHeap → Option Nat → Option TreeHeap
  | 0, _, _ => none
  | _ + 1, s, none => some s
  | fuel + 1, s, some iter => do
    let nxt := (s.heap iter).next
    let s ← playTreeFree fuel s iter true
    playTreeFreeLoop fuel s nxt

end

/-- `play_tree_remove`. -/
def playTreeRemove (s : TreeHeap) (pt : Nat) (freeIt withChildren : Bool) : Option TreeHeap := do
  let s ← playTreeUnlink s pt
  if freeIt then playTreeFree s.fuel s pt withChildren else some s

/-- `play_tree_set_child`. -/
def playTreeSetChild (s : TreeHeap) (pt child : Option Nat) : Option TreeHeap :=
  match pt, child with
  | some pt, some child => do
    let s ← playTreeReparent s.fuel s (s.heap pt).child none
    let iter ← playTreeFarthest (fun n => (s.heap n).prev) s.fuel child
    let s ← s.set pt fun c => { c with child := some iter }
    playTreeReparent s.fuel s (some iter) (some pt)
  | _, _ => some s

/-- `play_tree_set_parent`. -/
def playTreeSetParent (s : TreeHeap) (pt parent : Nat) : Option TreeHeap := do
  let s ← s.setIf (s.heap pt).parent fun c => { c with child := none }
  let s ← playTreeReparent s.fuel s (some pt) (some parent)
  match (s.heap pt).prev with
  | some prev => do
    let (s, iter) ← playTreeReparentBack s.fuel s prev parent
    s.set parent fun c => { c with child := some iter }
  | none => s.set parent fun c => { c with child := some pt }

/-- `play_tree_add_file`. -/
def playTreeAddFile (s : TreeHeap) (pt : Nat) (file : String) : Option TreeHeap :=
  if (s.heap pt).entryType ≠ .node ∧ (s.heap pt).entryType ≠ .file then some s
  else s.set pt fun c => { c with files := c.files ++ [file], entryType := .file }

/-- The first loop of `play_tree_cleanup`, which removes children without an entry. -/
def playTreePrune : Nat → TreeHeap → Option Nat → Option Nat → Option (TreeHeap × Option Nat)
  | 0, _, _, _ => none
  | _ + 1, s, none, first => some (s, first)
  | fuel + 1, s, some tmp, first => do
    let iter := (s.heap tmp).next
    if ← playTreeIsValid s.heap s.fuel tmp then playTreePrune fuel s iter first
    else do
      let s ← playTreeRemove s tmp true true
      playTreePrune fuel s iter (if some tmp = first then iter else first)

mutual

/-- `play_tree_cleanup`. -/
def playTreeCleanup : Nat → TreeHeap → Nat → Option (TreeHeap × Option Nat)
  | 0, _, _ => none
  | fuel + 1, s, pt => do
    if ← playTreeIsValid s.heap s.fuel pt then do
      let (s, first) ← playTreePrune s.fuel s (s.heap pt).child (s.heap pt).child
      let s ← playTreeCleanupLoop fuel s first
      some (s, some pt)
    else do
      let s ← playTreeRemove s pt true true
      some (s, none)

/-- Its second loop, over the children that are left. -/
def playTreeCleanupLoop : Nat → TreeHeap → Option Nat → Option TreeHeap
  | 0, _, _ => none
  | _ + 1, s, none => some s
  | fuel + 1, s, some tmp => do
    let iter := (s.heap tmp).next
    let (s, _) ← playTreeCleanup fuel s tmp
    playTreeCleanupLoop fuel s iter

end

/-! ## What the operations do to the links -/

/-- The nodes with other pointers. -/
def relinked (heap : Nat → PlayTree) (L : Links Nat) : Nat → PlayTree := fun n =>
  { heap n with parent := L.parent n, child := L.child n, next := L.next n, prev := L.prev n }

/-- The state with other pointers. -/
def TreeHeap.relink (s : TreeHeap) (L : Links Nat) : TreeHeap :=
  { s with heap := relinked s.heap L }

@[simp] theorem TreeHeap.links_relink (s : TreeHeap) (L : Links Nat) :
    (s.relink L).links = L := rfl

/-- Sound links, and no node is freed twice. -/
structure TreeHeap.Good (s : TreeHeap) : Prop where
  sound : s.links.Sound s.Live
  nodup : s.freed.Nodup
  freed_lt : ∀ n ∈ s.freed, n < s.size

/-- Pointers do not matter to whether a node is allocated. -/
theorem TreeHeap.live_mk (s : TreeHeap) (heap : Nat → PlayTree) (n : Nat) :
    (TreeHeap.mk heap s.size s.freed).Live n = s.Live n :=
  rfl

attribute [ext] PlayTree

variable {s : TreeHeap} {a n : Nat} {l : List Nat}

/-- States are the same if their nodes have the same pointers and nothing else differs. -/
theorem TreeHeap.eq_relink {s : TreeHeap} {heap : Nat → PlayTree} {L : Links Nat}
    (h : ∀ m, heap m = { s.heap m with
      parent := L.parent m, child := L.child m, next := L.next m, prev := L.prev m }) :
    some { s with heap := heap } = some (s.relink L) :=
  congrArg (fun heap => some { s with heap := heap }) (funext h)

theorem TreeHeap.Good.ne_up (h : s.Good) {b : Nat} (ha : s.Live a) (hup : s.links.up a = some b) :
    a ≠ b := by
  obtain ⟨as, has⟩ := h.sound.ups (h.sound.up_live ha hup)
  obtain ⟨bs, rfl, -⟩ := has.tail
  exact fun hab => has.not_mem_up hup (hab ▸ List.mem_cons_self)

theorem TreeHeap.Good.ne_up_up (h : s.Good) {b c : Nat} (ha : s.Live a)
    (hab : s.links.up a = some b) (hbc : s.links.up b = some c) : a ≠ c := by
  have hb := h.sound.up_live ha hab
  obtain ⟨as, has⟩ := h.sound.ups hb
  obtain ⟨bs, rfl, hbs⟩ := has.tail
  rw [hbc] at hbs
  obtain ⟨cs, rfl, -⟩ := hbs.tail
  exact fun hac => has.not_mem_up hab (hac ▸ List.mem_cons_of_mem b List.mem_cons_self)

theorem playTreeUnlink_eq (h : s.Good) {pt : Nat} (hpt : s.Live pt) :
    playTreeUnlink s pt = some (s.relink (s.links.unlink pt)) := by
  have hup : s.links.up pt = (s.heap pt).prev.or (s.heap pt).parent := rfl
  have hupn : ∀ n, (s.heap pt).next = some n → s.links.up n = some pt := fun n hn =>
    h.sound.up_next hpt hn
  have hprevl : ∀ q, (s.heap pt).prev = some q → s.Live q := fun q hq => h.sound.prev_live hpt hq
  have hnextl : ∀ q, (s.heap pt).next = some q → s.Live q := fun q hq => h.sound.next_live hpt hq
  have hparentl : ∀ q, (s.heap pt).parent = some q → s.Live q := fun q hq =>
    h.sound.parent_live hpt hq
  unfold playTreeUnlink
  cases hprev : (s.heap pt).prev with
  | some q =>
    have hql := hprevl q hprev
    rw [hprev] at hup
    have hne := h.ne_up hpt hup
    cases hnext : (s.heap pt).next with
    | some n =>
      have hnl := hnextl n hnext
      have hne2 := h.ne_up hnl (hupn n hnext)
      have hne3 := h.ne_up_up hnl (hupn n hnext) hup
      simp only [Option.bind_eq_bind, TreeHeap.set, TreeHeap.live_mk, hql, hnl, hpt, if_true,
        Option.bind_some]
      refine TreeHeap.eq_relink fun m => ?_
      apply PlayTree.ext <;> simp only [Links.unlink, TreeHeap.links, playTreeLinks,
        Function.update_apply] <;> grind
    | none =>
      simp only [Option.bind_eq_bind, TreeHeap.set, TreeHeap.live_mk, hql, hpt, if_true,
        Option.bind_some]
      refine TreeHeap.eq_relink fun m => ?_
      apply PlayTree.ext <;> simp only [Links.unlink, TreeHeap.links, playTreeLinks,
        Function.update_apply] <;> grind
  | none =>
    rw [hprev] at hup
    cases hparent : (s.heap pt).parent with
    | some p =>
      have hpl := hparentl p hparent
      rw [hparent] at hup
      have hne := h.ne_up hpt hup
      cases hnext : (s.heap pt).next with
      | some n =>
        have hnl := hnextl n hnext
        have hne2 := h.ne_up hnl (hupn n hnext)
        have hne3 := h.ne_up_up hnl (hupn n hnext) hup
        have hpar : (Function.update s.heap n { s.heap n with prev := none } pt).parent =
            some p := by
          rw [Function.update_of_ne hne2.symm, hparent]
        simp only [Option.bind_eq_bind, TreeHeap.set, TreeHeap.live_mk, hnl, hpt, hpl, if_true,
          Option.bind_some, hpar, TreeHeap.setIf]
        refine TreeHeap.eq_relink fun m => ?_
        apply PlayTree.ext <;> simp only [Links.unlink, TreeHeap.links, playTreeLinks,
          Function.update_apply] <;> grind
      | none =>
        simp only [Option.bind_eq_bind, TreeHeap.set, TreeHeap.live_mk, hpt, hpl, if_true,
          Option.bind_some, TreeHeap.setIf]
        refine TreeHeap.eq_relink fun m => ?_
        apply PlayTree.ext <;> simp only [Links.unlink, TreeHeap.links, playTreeLinks,
          Function.update_apply] <;> grind
    | none =>
      cases hnext : (s.heap pt).next with
      | some n =>
        have hnl := hnextl n hnext
        have hne2 := h.ne_up hnl (hupn n hnext)
        have hpar : (Function.update s.heap n { s.heap n with prev := none } pt).parent = none := by
          rw [Function.update_of_ne hne2.symm, hparent]
        simp only [Option.bind_eq_bind, TreeHeap.set, TreeHeap.live_mk, hnl, hpt, if_true,
          Option.bind_some, hpar, TreeHeap.setIf]
        refine TreeHeap.eq_relink fun m => ?_
        apply PlayTree.ext <;> simp only [Links.unlink, TreeHeap.links, playTreeLinks,
          Function.update_apply] <;> grind
      | none =>
        simp only [Option.bind_eq_bind, TreeHeap.set, hpt, if_true,
          Option.bind_some, TreeHeap.setIf]
        refine TreeHeap.eq_relink fun m => ?_
        apply PlayTree.ext <;> simp only [Links.unlink, TreeHeap.links, playTreeLinks,
          Function.update_apply] <;> grind

theorem TreeHeap.relink_links (s : TreeHeap) : s.relink s.links = s := rfl

theorem TreeHeap.relink_relink (s : TreeHeap) (L L' : Links Nat) :
    (s.relink L).relink L' = s.relink L' := rfl

theorem TreeHeap.set_parent (hn : s.Live n) (q : Option Nat) :
    (s.set n fun c => { c with parent := q }) = some (s.relink (s.links.reparent [n] q)) := by
  unfold TreeHeap.set
  rw [if_pos hn]
  refine TreeHeap.eq_relink fun m => ?_
  by_cases hm : m = n
  · subst hm
    simp [Links.reparent, TreeHeap.links, playTreeLinks]
  · simp [Links.reparent, TreeHeap.links, playTreeLinks, hm]

/-- The loop over siblings. -/
theorem playTreeReparent_eq {s : TreeHeap} {o : Option Nat} {l : List Nat}
    (h : Path s.links.next o l) (hl : ∀ n ∈ l, s.Live n) {fuel : Nat} (hlen : l.length < fuel)
    (q : Option Nat) :
    playTreeReparent fuel s o q = some (s.relink (s.links.reparent l q)) := by
  induction l generalizing s o fuel with
  | nil =>
    obtain ⟨fuel, rfl⟩ : ∃ f, fuel = f + 1 := ⟨fuel - 1, by omega⟩
    cases h
    rw [playTreeReparent, Links.reparent_nil, s.relink_links]
  | cons n l ih =>
    rw [List.length_cons] at hlen
    obtain ⟨fuel, rfl⟩ : ∃ f, fuel = f + 1 := ⟨fuel - 1, by omega⟩
    cases h with
    | cons h =>
      rw [playTreeReparent, TreeHeap.set_parent (hl n List.mem_cons_self)]
      have hrest := @ih (s.relink (s.links.reparent [n] q)) (s.links.next n) h
        (fun m hm => hl m (List.mem_cons_of_mem n hm)) fuel (by omega)
      refine Eq.trans (b := playTreeReparent fuel (s.relink (s.links.reparent [n] q))
        (s.links.next n) q) rfl (hrest.trans ?_)
      rw [TreeHeap.relink_relink, TreeHeap.links_relink, Links.reparent_reparent]
      rfl

/-- The loop over a node and those before it. -/
theorem playTreeReparentBack_eq (h : Path s.links.prev (some a) l) (hl : ∀ n ∈ l, s.Live n)
    {fuel : Nat} (hlen : l.length ≤ fuel) (q : Nat) {f : Nat} (hf : l.getLast? = some f) :
    playTreeReparentBack fuel s a q = some (s.relink (s.links.reparent l (some q)), f) := by
  induction l generalizing s a fuel with
  | nil => cases hf
  | cons n l ih =>
    rw [List.length_cons] at hlen
    obtain ⟨fuel, rfl⟩ : ∃ f, fuel = f + 1 := ⟨fuel - 1, by omega⟩
    cases h with
    | cons h =>
      rw [playTreeReparentBack, TreeHeap.set_parent (hl n List.mem_cons_self)]
      simp only [Option.bind_eq_bind, Option.bind_some]
      have hprev : ((s.relink (s.links.reparent [n] (some q))).heap n).prev = s.links.prev n :=
        rfl
      rw [hprev]
      cases hp : s.links.prev n with
      | none =>
        rw [hp] at h
        cases h
        cases hf
        rfl
      | some b =>
        rw [hp] at h
        have hl' : l ≠ [] := by
          rintro rfl
          cases h
        have hrest := @ih (s.relink (s.links.reparent [n] (some q))) b h
          (fun m hm => hl m (List.mem_cons_of_mem n hm)) fuel (by omega)
          (by rw [← hf, List.getLast?_cons_of_ne_nil hl'])
        refine hrest.trans ?_
        rw [TreeHeap.relink_relink, TreeHeap.links_relink, Links.reparent_reparent]
        rfl

theorem playTreeFarthest_path {link : Nat → Option Nat} (h : Path link (some a) l) {fuel : Nat}
    (hlen : l.length ≤ fuel) : playTreeFarthest link fuel a = l.getLast? := by
  induction l generalizing a fuel with
  | nil => cases h
  | cons n l ih =>
    rw [List.length_cons] at hlen
    obtain ⟨fuel, rfl⟩ : ∃ f, fuel = f + 1 := ⟨fuel - 1, by omega⟩
    cases h with
    | cons h =>
      rw [playTreeFarthest]
      cases hlink : link n with
      | none =>
        rw [hlink] at h
        cases h
        rfl
      | some b =>
        rw [hlink] at h
        have hl : l ≠ [] := by
          rintro rfl
          cases h
        rw [List.getLast?_cons_of_ne_nil hl]
        exact ih h (by omega)

/-! ## Nodes of sound heaps -/

theorem TreeHeap.Live.mem_range (h : s.Live n) : n ∈ List.range s.size := List.mem_range.2 h.1

theorem TreeHeap.Good.length_le (hnd : l.Nodup) (hl : ∀ n ∈ l, s.Live n) : l.length ≤ s.size := by
  have hsub := (hnd.subperm fun n hn => (hl n hn).mem_range).length_le
  rwa [List.length_range] at hsub

/-- What hangs below and beside a node. -/
theorem TreeHeap.Good.forest (h : s.Good) (hn : s.Live n) :
    ∃ below beside, s.links.Linked (s.links.parent n) (s.links.prev n) (.cons n below beside) ∧
      (Forest.cons n below beside).nodes.Nodup ∧
      ∀ m ∈ (Forest.cons n below beside).nodes, s.Live m := by
  obtain ⟨as, has⟩ := h.sound.ups hn
  obtain ⟨below, beside, hl⟩ := h.sound.forest (fun _ hm => TreeHeap.Live.mem_range hm)
    (List.range s.size).length hn has (Nat.le_add_left _ _)
  obtain ⟨bs, rfl, hbs⟩ := has.tail
  refine ⟨below, beside, hl, hl.nodup hbs, ?_⟩
  exact hl.mem_live h.sound fun a ha => Option.some_inj.1 ha ▸ hn

/-- The siblings from a node on. -/
theorem TreeHeap.Good.path_next (h : s.Good) {o : Option Nat} (ho : ∀ n, o = some n → s.Live n) :
    ∃ l, Path s.links.next o l ∧ l.length < s.fuel ∧ ∀ n ∈ l, s.Live n := by
  cases o with
  | none => exact ⟨[], .nil, Nat.succ_pos _, by simp⟩
  | some n =>
    obtain ⟨below, beside, hl, hnd, hlive⟩ := h.forest (ho n rfl)
    refine ⟨_, hl.path_next, ?_, fun m hm => hlive m (Forest.tops_subset hm)⟩
    have hle := (Forest.tops_sublist (Forest.cons n below beside)).length_le
    have hsize := TreeHeap.Good.length_le hnd hlive
    unfold TreeHeap.fuel
    omega

/-- A node and the siblings before it. -/
theorem TreeHeap.Good.path_prev (h : s.Good) (hn : s.Live n) :
    ∃ l, Path s.links.prev (some n) l ∧ l.length < s.fuel ∧ (∀ m ∈ l, s.Live m) ∧
      ∃ as, s.links.Ups (some n) as ∧ l <+: as := by
  obtain ⟨as, has⟩ := h.sound.ups hn
  obtain ⟨l, hl, hpre⟩ := has.path_prev
  have hlive := h.sound.ups_live has fun a ha => Option.some_inj.1 ha ▸ hn
  refine ⟨l, hl, ?_, fun m hm => hlive m (hpre.subset hm), as, has, hpre⟩
  have hsize := TreeHeap.Good.length_le has.nodup hlive
  have hle := hpre.length_le
  unfold TreeHeap.fuel
  omega

end MPlayer
