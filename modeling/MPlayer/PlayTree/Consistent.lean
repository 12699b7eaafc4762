import MPlayer.PlayTree.Sound

/-!
# Consistent play trees

The links of a play tree stay consistent as long as no list of siblings is given a parent that has
children already.  `play_tree_cleanup` takes out the subtrees without an entry, and frees each of
their nodes once.
-/

namespace MPlayer

open Lib

variable {s : TreeHeap}

/-! ## Taking trees out -/

/-- A node that can be played. -/
def holdsEntry (heap : Nat → PlayTree) (n : Nat) : Bool := (heap n).entryType ≠ .node

theorem playTreeAnyValid_eq {heap : Nat → PlayTree} : ∀ {f : Forest Nat} {parent prev : Option Nat}
    {fuel : Nat}, (playTreeLinks heap).Linked parent prev f → f.nodes.length < fuel →
      playTreeAnyValid heap fuel f.head? = some (f.nodes.any (holdsEntry heap))
  | .nil, _, _, fuel, _, hfuel => by
    obtain ⟨fuel, rfl⟩ : ∃ f, fuel = f + 1 := ⟨fuel - 1, by omega⟩
    rfl
  | .cons a below beside, _, _, fuel, h, hfuel => by
    obtain ⟨fuel, rfl⟩ : ∃ f, fuel = f + 1 := ⟨fuel - 1, by omega⟩
    simp only [Forest.nodes, List.length_cons, List.length_append] at hfuel
    have hnext : (heap a).next = beside.head? := h.1.2.2.2
    have hchild : (heap a).child = below.head? := h.1.2.2.1
    have hbelow := playTreeAnyValid_eq h.2.1 (by omega : _ < fuel)
    have hbeside := playTreeAnyValid_eq h.2.2 (by omega : _ < fuel)
    rw [Forest.nodes, List.any_cons, List.any_append, Forest.head?, playTreeAnyValid, hchild,
      hnext, hbelow, hbeside]
    by_cases hnode : (heap a).entryType ≠ .node
    · simp [hnode, holdsEntry]
    · rw [if_neg hnode]
      have hno : holdsEntry heap a = false := by simpa [holdsEntry] using hnode
      cases hb : below.nodes.any (holdsEntry heap) <;> simp [hno]

theorem playTreeIsValid_eq {heap : Nat → PlayTree} {a : Nat} {below : Forest Nat} {fuel : Nat}
    (h : (playTreeLinks heap).Linked (some a) none below)
    (hc : (heap a).child = below.head?) (hfuel : below.nodes.length < fuel) :
    playTreeIsValid heap fuel a = some (Forest.holdsIn (holdsEntry heap) a below) := by
  unfold playTreeIsValid
  rw [hc, playTreeAnyValid_eq h hfuel]
  by_cases hnode : (heap a).entryType ≠ .node
  · simp [hnode, holdsEntry, Forest.holdsIn]
  · have hno : holdsEntry heap a = false := by simpa [holdsEntry] using hnode
    rw [if_neg hnode]
    simp [Forest.holdsIn, hno]

/-- A tree is taken out and freed. -/
theorem playTreeRemove_eq (h : s.Good) {a : Nat} {below beside : Forest Nat}
    {parent prev : Option Nat} {as : List Nat} (ha : s.Live a)
    (hl : s.links.Linked parent prev (.cons a below beside))
    (hups : s.links.Ups (prev.or parent) as) :
    ∃ s', playTreeRemove s a true true = some s' ∧ s'.Good ∧ s'.size = s.size ∧
      s'.freed.Perm (a :: below.nodes ++ s.freed) ∧
      (∀ m, m ∉ a :: below.nodes → s'.heap m = relinked s.heap (s.links.unlink a) m) ∧
      ∀ m, (s'.heap m).entryType = (s.heap m).entryType := by
  let s1 := s.relink (s.links.unlink a)
  have hg1 : s1.Good := h.unlink ha
  have ha1 : s1.Live a := ha
  obtain ⟨-, hbelow, hchild⟩ := hl.unlink hups
  have hnd := hl.nodup hups
  have hlive := hl.mem_live h.sound fun b hb => Option.some_inj.1 hb ▸ ha
  have hlen := TreeHeap.Good.length_le hnd hlive
  simp only [Forest.nodes, List.length_cons, List.length_append] at hlen
  have hfuel : 2 * below.nodes.length + 1 < s1.fuel := by
    have hf : s1.fuel = 2 * s.size + 3 := rfl
    omega
  obtain ⟨s', hfree, hg', hsize, hfreed, hheap, htype⟩ :=
    (freesAll below).free hg1 ha1 hbelow (hchild.trans hl.1.2.2.1) hfuel
  refine ⟨s', ?_, hg', hsize, hfreed, fun m hm => ?_, htype⟩
  · unfold playTreeRemove
    rw [playTreeUnlink_eq h ha]
    exact hfree
  · -- the node has no neighbours any more
    rw [hheap m hm]
    have hL : s1.links.unlink a = s.links.unlink a := Links.unlink_unlink s.links a
    rw [hL]
    rfl

/-- The node that leads to a list of siblings, with another first one: the one before the list, or
the one above it. -/
def leadCell (heap : Nat → PlayTree) (p : Nat) (q first : Option Nat) (m : Nat) : PlayTree :=
  if q = some m then { heap m with next := first }
  else if q = none ∧ m = p then { heap m with child := first }
  else heap m

variable {m pt : Nat}

/-- Children are reached through their parent. -/
theorem leadCell_child (heap : Nat → PlayTree) {p : Nat} (first : Option Nat) (hm : m ≠ p) :
    leadCell heap p none first m = heap m := by
  rw [leadCell, if_neg (by simp), if_neg fun he => hm he.2]

/-- Other siblings are reached through the one before them. -/
theorem leadCell_next (heap : Nat → PlayTree) {p a : Nat} (first : Option Nat) (hm : m ≠ a) :
    leadCell heap p (some a) first m = heap m := by
  rw [leadCell, if_neg fun he => hm (Option.some_inj.1 he).symm, if_neg (by simp)]

/-- The siblings `f` below `p` are reached through `q`, the one before them, or else through `p`. -/
structure Lead (s : TreeHeap) (p : Nat) (q : Option Nat) (f : Forest Nat) : Prop where
  linked : s.links.Linked (some p) q f
  p_live : s.Live p
  q_live : ∀ x, q = some x → s.Live x ∧ x ≠ p ∧ s.links.next x = f.head?
  child : q = none → s.links.child p = f.head?
  not_mem : p ∉ f.nodes

theorem Lead.ups {p : Nat} {q : Option Nat} {f : Forest Nat} (h : Lead s p q f) (hg : s.Good) :
    ∃ as, s.links.Ups (q.or (some p)) as := by
  cases q with
  | none => exact hg.sound.ups h.p_live
  | some x => exact hg.sound.ups (h.q_live x rfl).1

theorem Lead.head_live {p : Nat} {q : Option Nat} {f : Forest Nat} (h : Lead s p q f)
    (hg : s.Good) : ∀ a, f.head? = some a → s.Live a := by
  intro a ha
  cases q with
  | none => exact hg.sound.child_live h.p_live ((h.child rfl).trans ha)
  | some x => exact hg.sound.next_live (h.q_live x rfl).1 ((h.q_live x rfl).2.2.trans ha)

/-- A first node already leads to its list. -/
theorem Lead.leadCell_head {p : Nat} {q : Option Nat} {f : Forest Nat} (h : Lead s p q f)
    (m : Nat) : leadCell s.heap p q f.head? m = s.heap m := by
  unfold leadCell
  split
  · rename_i hq
    have hnext : (s.heap m).next = f.head? := (h.q_live m hq).2.2
    rw [← hnext]
  · split
    · rename_i hq
      have hchild : (s.heap m).child = f.head? := hq.2 ▸ h.child hq.1
      rw [← hchild]
    · rfl

/-- The last change counts. -/
theorem leadCell_congr {heap heap' : Nat → PlayTree} {p : Nat} {q o : Option Nat}
    (h : heap' m = leadCell heap p q o m) (first : Option Nat) :
    leadCell heap' p q first m = leadCell heap p q first m := by
  unfold leadCell at *
  rw [h]
  split
  · rfl
  · split <;> rfl

/-- The trees `f'` of the siblings `f` below `p` are left, behind `q`.  The others were freed, each
node once, and nothing else changed. -/
structure Trimmed (s s' : TreeHeap) (p : Nat) (q : Option Nat) (f f' : Forest Nat) : Prop where
  good : s'.Good
  size_eq : s'.size = s.size
  freed : ∃ gone, s'.freed.Perm (gone ++ s.freed) ∧ (gone ++ f'.nodes).Perm f.nodes
  linked : s'.links.Linked (some p) q f'
  heap_eq : ∀ m, m ∉ f.nodes → s'.heap m = leadCell s.heap p q f'.head? m
  type_eq : ∀ m, (s'.heap m).entryType = (s.heap m).entryType

section

variable {s' s'' : TreeHeap} {p : Nat} {q : Option Nat} {f f' f'' : Forest Nat}

theorem Lead.trimmed_refl (h : Lead s p q f) (hg : s.Good) : Trimmed s s p q f f :=
  ⟨hg, rfl, ⟨[], List.Perm.refl _, List.Perm.refl _⟩, h.linked,
    fun m _ => (h.leadCell_head m).symm, fun _ => rfl⟩

theorem Trimmed.subset (h : Trimmed s s' p q f f') : ∀ m ∈ f'.nodes, m ∈ f.nodes := by
  obtain ⟨gone, -, hperm⟩ := h.freed
  exact fun m hm => hperm.mem_iff.1 (List.mem_append_right gone hm)

/-- Nodes that are not among the siblings or below them live on. -/
theorem Trimmed.live (h : Trimmed s s' p q f f') {m : Nat} (hm : s.Live m) (hf : m ∉ f.nodes) :
    s'.Live m := by
  obtain ⟨gone, hfreed, hperm⟩ := h.freed
  refine ⟨h.size_eq ▸ hm.1, fun hmem => ?_⟩
  rcases List.mem_append.1 (hfreed.mem_iff.1 hmem) with hmem | hmem
  · exact hf (hperm.mem_iff.1 (List.mem_append_left _ hmem))
  · exact hm.2 hmem

theorem Trimmed.trans (h : Trimmed s s' p q f f') (h' : Trimmed s' s'' p q f' f'') :
    Trimmed s s'' p q f f'' := by
  obtain ⟨gone, hfreed, hperm⟩ := h.freed
  obtain ⟨gone', hfreed', hperm'⟩ := h'.freed
  refine ⟨h'.good, h'.size_eq.trans h.size_eq, ⟨gone' ++ gone, ?_, ?_⟩, h'.linked,
    fun m hm => ?_, fun m => (h'.type_eq m).trans (h.type_eq m)⟩
  · rw [List.append_assoc]
    exact hfreed'.trans (hfreed.append_left gone')
  · calc (gone' ++ gone ++ f''.nodes).Perm (gone ++ (gone' ++ f''.nodes)) := by
          rw [← List.append_assoc]
          exact List.perm_append_comm.append_right _
      _ |>.Perm (gone ++ f'.nodes) := hperm'.append_left gone
      _ |>.Perm f.nodes := hperm
  · rw [h'.heap_eq m fun hmem => hm (h.subset m hmem)]
    exact leadCell_congr (h.heap_eq m hm) _

/-- The node that leads to the list leads to what is left of it. -/
theorem Trimmed.lead (h : Trimmed s s' p q f f') (hl : Lead s p q f) (hg : s.Good) :
    Lead s' p q f' := by
  have hp : s'.heap p = leadCell s.heap p q f'.head? p := h.heap_eq p hl.not_mem
  refine ⟨h.linked, h.live hl.p_live hl.not_mem, fun x hx => ?_, fun hq => ?_,
    fun hmem => hl.not_mem (h.subset p hmem)⟩
  · obtain ⟨as, has⟩ := hl.ups hg
    have hxf : x ∉ f.nodes := hl.linked.up_not_mem has (by rw [hx]; rfl)
    obtain ⟨hxl, hxp, -⟩ := hl.q_live x hx
    refine ⟨h.live hxl hxf, hxp, ?_⟩
    have hcell := h.heap_eq x hxf
    rw [leadCell, if_pos hx] at hcell
    exact congrArg PlayTree.next hcell
  · rw [leadCell, if_neg (by rw [hq]; simp), if_pos ⟨hq, rfl⟩] at hp
    exact congrArg PlayTree.child hp

variable {a : Nat} {below below' beside beside' : Forest Nat}

theorem Lead.nodup (h : Lead s p q f) (hg : s.Good) : f.nodes.Nodup := by
  obtain ⟨as, has⟩ := h.ups hg
  exact h.linked.nodup has

theorem Lead.mem_live (h : Lead s p q f) (hg : s.Good) : ∀ m ∈ f.nodes, s.Live m :=
  h.linked.mem_live hg.sound (h.head_live hg)

/-- The children of the first sibling. -/
theorem Lead.children (h : Lead s p q (.cons a below beside)) (hg : s.Good) :
    Lead s a none below := by
  have ha := h.mem_live hg a List.mem_cons_self
  obtain ⟨as, has⟩ := hg.sound.ups ha
  exact ⟨h.linked.2.1, ha, fun x hx => (Option.some_ne_none x hx.symm).elim,
    fun _ => h.linked.1.2.2.1, h.linked.2.1.up_not_mem has rfl⟩

/-- The siblings behind it, when something was done to its children. -/
theorem Lead.rest (h : Lead s p q (.cons a below beside)) (hg : s.Good)
    (ht : Trimmed s s' a none below below') : Lead s' p (some a) beside := by
  have hnd := h.nodup hg
  have hp := h.not_mem
  rw [Forest.nodes, List.nodup_cons, List.nodup_append, List.mem_append, not_or] at hnd
  obtain ⟨⟨hab, has⟩, -, -, hdisj⟩ := hnd
  simp only [Forest.nodes, List.mem_cons, List.mem_append, not_or] at hp
  have hsame : ∀ m ∈ beside.nodes, s'.heap m = s.heap m := fun m hm => by
    rw [ht.heap_eq m fun hb => hdisj m hb m hm rfl]
    exact leadCell_child _ _ fun he => has (he ▸ hm)
  have ha : s'.heap a = { s.heap a with child := below'.head? } := by
    rw [ht.heap_eq a hab, leadCell, if_neg (by simp), if_pos ⟨rfl, rfl⟩]
  have hla := h.mem_live hg a List.mem_cons_self
  refine ⟨h.linked.2.2.congr fun m hm => ?_, ht.live h.p_live hp.2.1, ?_, ?_, hp.2.2⟩
  · simp only [TreeHeap.links, playTreeLinks, hsame m hm, and_self]
  · rintro x hx
    cases hx
    exact ⟨ht.live hla hab, Ne.symm hp.1, (congrArg PlayTree.next ha).trans h.linked.1.2.2.2⟩
  · exact fun he => (Option.some_ne_none a he).elim

/-- First the children of the first sibling, then the siblings behind it. -/
theorem Trimmed.cons (h : Lead s p q (.cons a below beside)) (hg : s.Good)
    (ht : Trimmed s s' a none below below') (ht' : Trimmed s' s'' p (some a) beside beside') :
    Trimmed s s'' p q (.cons a below beside) (.cons a below' beside') := by
  have hnd := h.nodup hg
  rw [Forest.nodes, List.nodup_cons, List.nodup_append, List.mem_append, not_or] at hnd
  obtain ⟨⟨hab, has⟩, -, -, hdisj⟩ := hnd
  obtain ⟨gone, hfreed, hperm⟩ := ht.freed
  obtain ⟨gone', hfreed', hperm'⟩ := ht'.freed
  have ha : s''.heap a = { s.heap a with child := below'.head?, next := beside'.head? } := by
    have ha' : s'.heap a = { s.heap a with child := below'.head? } := by
      rw [ht.heap_eq a hab, leadCell, if_neg (by simp), if_pos ⟨rfl, rfl⟩]
    rw [ht'.heap_eq a has, leadCell, if_pos rfl, ha']
  refine ⟨ht'.good, ht'.size_eq.trans ht.size_eq, ⟨gone' ++ gone, ?_, ?_⟩,
    ⟨?_, ht.linked.congr fun m hm => ?_, ht'.linked⟩, fun m hm => ?_,
    fun m => (ht'.type_eq m).trans (ht.type_eq m)⟩
  · rw [List.append_assoc]
    exact hfreed'.trans (hfreed.append_left gone')
  · rw [Forest.nodes, Forest.nodes]
    refine List.perm_middle.trans (List.Perm.cons a ?_)
    calc (gone' ++ gone ++ (below'.nodes ++ beside'.nodes)).Perm
          (gone ++ below'.nodes ++ (gone' ++ beside'.nodes)) := by
          rw [List.append_assoc, List.append_assoc]
          refine List.perm_append_comm_assoc gone' gone _ |>.trans (List.Perm.append_left gone ?_)
          exact List.perm_append_comm_assoc gone' below'.nodes _
      _ |>.Perm (below.nodes ++ beside.nodes) := hperm.append hperm'
  · simp only [TreeHeap.links, playTreeLinks, ha, and_true]
    exact ⟨h.linked.1.1, h.linked.1.2.1⟩
  · have hmb := ht.subset m hm
    have hcell : s''.heap m = s'.heap m := by
      rw [ht'.heap_eq m fun hs => hdisj m hmb m hs rfl]
      exact leadCell_next _ _ fun he => hab (he ▸ hmb)
    simp only [TreeHeap.links, playTreeLinks, hcell, and_self]
  · simp only [Forest.nodes, List.mem_cons, List.mem_append, not_or] at hm
    have hcell : s''.heap m = s.heap m := by
      rw [ht'.heap_eq m hm.2.2, leadCell_next _ _ hm.1, ht.heap_eq m hm.2.1,
        leadCell_child _ _ hm.1]
    rw [hcell]
    exact (h.leadCell_head m).symm

/-- The first sibling is removed with its children. -/
theorem Lead.remove (h : Lead s p q (.cons a below beside)) (hg : s.Good) :
    ∃ s', playTreeRemove s a true true = some s' ∧
      Trimmed s s' p q (.cons a below beside) beside := by
  obtain ⟨as, has⟩ := h.ups hg
  have ha := h.mem_live hg a List.mem_cons_self
  obtain ⟨s', he, hg', hsize, hfreed, hheap, htype⟩ := playTreeRemove_eq hg ha h.linked has
  have hnd := h.nodup hg
  rw [Forest.nodes, List.nodup_cons, List.nodup_append, List.mem_append, not_or] at hnd
  obtain ⟨⟨hab, has'⟩, -, -, hdisj⟩ := hnd
  refine ⟨s', he, hg', hsize, ⟨_, hfreed, by rw [Forest.nodes]; exact List.Perm.refl _⟩,
    (h.linked.unlink has).1.congr fun m hm => ?_, fun m hm => ?_, htype⟩
  · have hm1 := hheap m (by
      rw [List.mem_cons, not_or]
      exact ⟨fun he => has' (he ▸ hm), fun hb => hdisj m hb m hm rfl⟩)
    simp only [TreeHeap.links, playTreeLinks, hm1, relinked, and_self]
  · simp only [Forest.nodes, List.mem_cons, List.mem_append, not_or] at hm
    rw [hheap m (by simp [hm.1, hm.2.1])]
    obtain ⟨hparent, hprev, -, hnext⟩ := h.linked.1
    have hnm : beside.head? ≠ some m := fun he => by
      cases beside with
      | nil => cases he
      | cons b ds bs =>
        cases he
        exact hm.2.2 List.mem_cons_self
    unfold leadCell
    cases q with
    | none =>
      by_cases hpm : m = p
      · subst hpm
        apply PlayTree.ext <;> simp [relinked, Links.unlink, hparent, hprev, hnext, hm.1, hnm]
        all_goals rfl
      · apply PlayTree.ext <;>
          simp [relinked, Links.unlink, hparent, hprev, hnext, hm.1, hnm, hpm, Ne.symm hpm]
        all_goals rfl
    | some x =>
      by_cases hxm : x = m
      · apply PlayTree.ext <;> simp [relinked, Links.unlink, hprev, hnext, hm.1, hnm, hxm]
        all_goals rfl
      · apply PlayTree.ext <;> simp [relinked, Links.unlink, hprev, hnext, hm.1, hnm, hxm]
        all_goals rfl

theorem Trimmed.valid (h : Trimmed s s' p q f f') {valid : Nat → Bool}
    (hvalid : holdsEntry s.heap = valid) : holdsEntry s'.heap = valid := by
  rw [← hvalid]
  funext m
  unfold holdsEntry
  rw [h.type_eq m]

/-- The first loop leaves the siblings with an entry at or below them. -/
theorem playTreePrune_eq {valid : Nat → Bool} {first : Option Nat} {fuel : Nat} (hg : s.Good)
    (h : Lead s p q f) (hvalid : holdsEntry s.heap = valid) (hfuel : f.nodes.length < fuel)
    (hfirst : if q = none then first = f.head? else ∀ b ∈ f.nodes, first ≠ some b) :
    ∃ s', playTreePrune fuel s f.head? first =
        some (s', if q = none then (f.keep valid).head? else first) ∧
      Trimmed s s' p q f (f.keep valid) := by
  induction f generalizing s q first fuel with
  | nil =>
    obtain ⟨fuel, rfl⟩ : ∃ f, fuel = f + 1 := ⟨fuel - 1, by omega⟩
    refine ⟨s, ?_, h.trimmed_refl hg⟩
    cases q with
    | none => rw [if_pos rfl, hfirst]; rfl
    | some x => rfl
  | cons a below beside _ ih =>
    have hnd := h.nodup hg
    have hlen := TreeHeap.Good.length_le hnd (h.mem_live hg)
    simp only [Forest.nodes, List.length_cons, List.length_append] at hfuel hlen
    obtain ⟨fuel, rfl⟩ : ∃ f, fuel = f + 1 := ⟨fuel - 1, by omega⟩
    rw [Forest.nodes, List.nodup_cons, List.mem_append, not_or] at hnd
    have hnext : (s.heap a).next = beside.head? := h.linked.1.2.2.2
    have hhead : ∀ ds bs, (Forest.cons a ds bs).head? = some a := fun _ _ => rfl
    have hv : playTreeIsValid s.heap s.fuel a = some (Forest.holdsIn valid a below) := by
      rw [← hvalid]
      refine playTreeIsValid_eq h.linked.2.1 h.linked.1.2.2.1 ?_
      unfold TreeHeap.fuel
      omega
    cases hholds : Forest.holdsIn valid a below with
    | true =>
      have hkeep : (Forest.cons a below beside).keep valid = .cons a below (beside.keep valid) :=
        if_pos hholds
      have hrefl := (h.children hg).trimmed_refl hg
      obtain ⟨s', he, ht⟩ := @ih s (some a) first fuel hg (h.rest hg hrefl) hvalid (by omega) (by
        rw [if_neg (by simp)]
        intro b hb hbf
        cases q with
        | none =>
          rw [if_pos rfl] at hfirst
          cases hfirst.symm.trans hbf
          exact hnd.1.2 hb
        | some x =>
          rw [if_neg (by simp)] at hfirst
          exact hfirst b (List.mem_cons_of_mem a (List.mem_append_right _ hb)) hbf)
      refine ⟨s', ?_, hkeep ▸ Trimmed.cons h hg hrefl ht⟩
      rw [hkeep]
      simp only [hhead, playTreePrune, Option.bind_eq_bind, hv, Option.bind_some, hholds, hnext,
        he, if_true]
      cases q with
      | none =>
        rw [if_pos rfl] at hfirst
        rw [if_neg (by simp), if_pos rfl, hfirst, hhead]
      | some x => rfl
    | false =>
      have hkeep : (Forest.cons a below beside).keep valid = beside.keep valid :=
        if_neg (by simp [hholds])
      obtain ⟨s1, he1, ht1⟩ := h.remove hg
      obtain ⟨s', he, ht⟩ := @ih s1 q (if some a = first then beside.head? else first) fuel
        ht1.good (ht1.lead h hg) (ht1.valid hvalid) (by omega) (by
          cases q with
          | none =>
            rw [if_pos rfl] at hfirst ⊢
            exact if_pos hfirst.symm
          | some x =>
            rw [if_neg (by simp)] at hfirst ⊢
            intro b hb
            have hne : some a ≠ first := fun he => hfirst a List.mem_cons_self he.symm
            rw [if_neg hne]
            exact hfirst b (List.mem_cons_of_mem a (List.mem_append_right _ hb)))
      refine ⟨s', ?_, hkeep ▸ ht1.trans ht⟩
      rw [hkeep]
      simp only [hhead, playTreePrune, Option.bind_eq_bind, hv, Option.bind_some, hholds, hnext,
        he1, he, Bool.false_eq_true, if_false]
      cases q with
      | none => rfl
      | some x =>
        rw [if_neg (by simp)] at hfirst
        have hne : some a ≠ first := fun he => hfirst a List.mem_cons_self he.symm
        rw [if_neg hne]

/-- The second loop takes the subtrees without an entry out of the trees that the first one
left. -/
def TrimsAll (valid : Nat → Bool) (f : Forest Nat) : Prop :=
  ∀ (s : TreeHeap) (p : Nat) (q : Option Nat) (fuel : Nat), s.Good → Lead s p q (f.keep valid) →
    holdsEntry s.heap = valid → 2 * f.nodes.length < fuel →
    ∃ s', playTreeCleanupLoop fuel s (f.keep valid).head? = some s' ∧
      Trimmed s s' p q (f.keep valid) (f.pruned valid)

/-- Then the tree above is cleaned up. -/
theorem TrimsAll.cleanup {valid : Nat → Bool} (hall : TrimsAll valid below) {fuel : Nat}
    (hg : s.Good) (h : Lead s a none below) (hvalid : holdsEntry s.heap = valid)
    (hholds : Forest.holdsIn valid a below = true)
    (hfuel : 2 * below.nodes.length + 1 < fuel) :
    ∃ s', playTreeCleanup fuel s a = some (s', some a) ∧
      Trimmed s s' a none below (below.pruned valid) := by
  obtain ⟨fuel, rfl⟩ : ∃ f, fuel = f + 1 := ⟨fuel - 1, by omega⟩
  have hlen := TreeHeap.Good.length_le (h.nodup hg) (h.mem_live hg)
  have hlt : below.nodes.length < s.fuel := by
    unfold TreeHeap.fuel
    omega
  have hchild : (s.heap a).child = below.head? := h.child rfl
  have hv : playTreeIsValid s.heap s.fuel a = some true := by
    rw [playTreeIsValid_eq h.linked hchild hlt, hvalid, hholds]
  obtain ⟨s1, he1, ht1⟩ :=
    @playTreePrune_eq s a none below valid below.head? s.fuel hg h hvalid hlt rfl
  obtain ⟨s2, he2, ht2⟩ := hall s1 a none fuel ht1.good (ht1.lead h hg) (ht1.valid hvalid)
    (by omega)
  refine ⟨s2, ?_, ht1.trans ht2⟩
  rw [if_pos rfl] at he1
  simp only [playTreeCleanup, Option.bind_eq_bind, hv, hchild, he1, he2, Option.bind_some, if_true]

theorem trimsAll (valid : Nat → Bool) : ∀ f : Forest Nat, TrimsAll valid f
  | .nil => by
    intro s p q fuel hg h hvalid hfuel
    obtain ⟨fuel, rfl⟩ : ∃ f, fuel = f + 1 := ⟨fuel - 1, by omega⟩
    exact ⟨s, rfl, h.trimmed_refl hg⟩
  | .cons a below beside => by
    intro s p q fuel hg h hvalid hfuel
    simp only [Forest.nodes, List.length_cons, List.length_append] at hfuel
    cases hholds : Forest.holdsIn valid a below with
    | true =>
      obtain ⟨fuel, rfl⟩ : ∃ f, fuel = f + 1 := ⟨fuel - 1, by omega⟩
      have hkeep : (Forest.cons a below beside).keep valid = .cons a below (beside.keep valid) :=
        if_pos hholds
      have hpruned : (Forest.cons a below beside).pruned valid =
          .cons a (below.pruned valid) (beside.pruned valid) := if_pos hholds
      rw [hkeep] at h ⊢
      rw [hpruned]
      obtain ⟨s1, he1, ht1⟩ :=
        (trimsAll valid below).cleanup hg (h.children hg) hvalid hholds (by omega : _ < fuel)
      obtain ⟨s2, he2, ht2⟩ := trimsAll valid beside s1 p (some a) fuel ht1.good (h.rest hg ht1)
        (ht1.valid hvalid) (by omega)
      have hnext : (s.heap a).next = (beside.keep valid).head? := h.linked.1.2.2.2
      refine ⟨s2, ?_, Trimmed.cons h hg ht1 ht2⟩
      simp only [Forest.head?, playTreeCleanupLoop, Option.bind_eq_bind, he1, Option.bind_some,
        hnext]
      exact he2
    | false =>
      have hkeep : (Forest.cons a below beside).keep valid = beside.keep valid :=
        if_neg (by simp [hholds])
      have hpruned : (Forest.cons a below beside).pruned valid = beside.pruned valid :=
        if_neg (by simp [hholds])
      rw [hkeep] at h ⊢
      rw [hpruned]
      exact trimsAll valid beside s p q fuel hg h hvalid (by omega)

end

/-! ## Runs -/

/-- A call of one of the operations. -/
inductive TreeOp where
  | new
  | append (pt entry : Nat)
  | prepend (pt entry : Nat)
  | insert (pt entry : Nat)
  | setChild (pt child : Option Nat)
  | setParent (pt parent : Nat)
  | remove (pt : Nat) (freeIt withChildren : Bool)
  | free (pt : Option Nat) (children : Bool)
  | cleanup (pt : Nat)
  | addFile (pt : Nat) (file : String)

/-- What a call does. -/
def treeStep (s : TreeHeap) : TreeOp → Option TreeHeap
  | .new => some (playTreeNew s)
  | .append pt entry => playTreeAppendEntry s pt entry
  | .prepend pt entry => playTreePrependEntry s pt entry
  | .insert pt entry => playTreeInsertEntry s pt entry
  | .setChild pt child => playTreeSetChild s pt child
  | .setParent pt parent => playTreeSetParent s pt parent
  | .remove pt freeIt withChildren => playTreeRemove s pt freeIt withChildren
  | .free none _ => some s
  | .free (some pt) children => playTreeFree s.fuel s pt children
  | .cleanup pt => (playTreeCleanup s.fuel s pt).map Prod.fst
  | .addFile pt file => playTreeAddFile s pt file

/-- The calls that a forest can be made with: of nodes that are allocated, with entries that hang
nowhere and lists of siblings without a parent.  A tree is not hung into itself. -/
def TreeHeap.Allowed (s : TreeHeap) : TreeOp → Prop
  | .new => True
  | .append pt entry => (pt = entry ∧ s.Live pt) ∨ s.CanAdd pt entry
  | .prepend pt entry => s.CanAdd pt entry
  | .insert pt entry => s.CanAdd pt entry
  | .setChild pt child => ∀ p ∈ pt, ∀ c ∈ child, s.CanHang p c
  | .setParent pt parent => s.CanHang parent pt
  | .remove pt _ _ => s.Live pt
  | .free pt _ => ∀ n ∈ pt, s.Live n
  | .cleanup pt => s.Live pt
  | .addFile pt _ => s.Live pt

/-- Siblings are given to a parent without children. -/
def TreeHeap.HangsOnLeaf (s : TreeHeap) : TreeOp → Prop
  | .setParent _ parent => (s.heap parent).child = none
  | _ => True

/-- The nodes agree with their neighbours. -/
structure TreeHeap.Consistent (s : TreeHeap) : Prop where
  next_prev : ∀ n m, s.Live n → (s.heap n).next = some m → s.Live m ∧ (s.heap m).prev = some n
  prev_next : ∀ n m, s.Live n → (s.heap n).prev = some m → s.Live m ∧ (s.heap m).next = some n
  siblings : ∀ n m, s.Live n → (s.heap n).next = some m → (s.heap m).parent = (s.heap n).parent
  child_first : ∀ p c, s.Live p → (s.heap p).child = some c →
    s.Live c ∧ (s.heap c).parent = some p ∧ (s.heap c).prev = none
  reachable : ∀ n p, s.Live n → (s.heap n).parent = some p →
    s.Live p ∧ ∃ l, Path (fun m => (s.heap m).next) (s.heap p).child l ∧ n ∈ l

/-- `play_tree_cleanup` takes the subtrees without an entry out of the tree at `pt`, or else the
whole tree, and frees each of their nodes once. -/
def TreeHeap.CleansUp (s : TreeHeap) (pt : Nat) : Prop :=
  ∃ s' r below, playTreeCleanup s.fuel s pt = some (s', r) ∧
    s.links.Linked (some pt) none below ∧ (s.heap pt).child = below.head? ∧ s'.freed.Nodup ∧
    if Forest.holdsIn (holdsEntry s.heap) pt below then
      r = some pt ∧ Trimmed s s' pt none below (below.pruned (holdsEntry s.heap))
    else
      r = none ∧ s'.freed.Perm (pt :: below.nodes ++ s.freed) ∧
        ∀ m, m ∉ pt :: below.nodes → s'.heap m = relinked s.heap (s.links.unlink pt) m

/-- What holds of each call of a run. -/
def EachCall (P : TreeHeap → TreeOp → Prop) : TreeHeap → List TreeOp → Prop
  | _, [] => True
  | s, op :: ops => P s op ∧ ∀ s' ∈ treeStep s op, EachCall P s' ops

/-- No call fails, the nodes agree before and after each, and `play_tree_cleanup` does what it
should. -/
def StaysConsistent : TreeHeap → List TreeOp → Prop
  | s, [] => s.Consistent
  | s, op :: ops => s.Consistent ∧ (∀ pt, op = .cleanup pt → s.CleansUp pt) ∧
      ∃ s', treeStep s op = some s' ∧ StaysConsistent s' ops

theorem TreeHeap.Good.consistent (h : s.Good) : s.Consistent := by
  refine ⟨fun n m hn hnm => ?_, fun n m hn hnm => ?_, fun n m hn hnm => h.sound.sibling hn hnm,
    fun p c hp hc => ?_, fun n p hn hp => ?_⟩
  · have hm := h.sound.next_live hn hnm
    exact ⟨hm, (h.sound.next_iff hn hm).1 hnm⟩
  · have hm := h.sound.prev_live hn hnm
    exact ⟨hm, (h.sound.next_iff hm hn).2 hnm⟩
  · have hcl := h.sound.child_live hp hc
    exact ⟨hcl, (h.sound.child_iff hp hcl).1 hc⟩
  · have hpl := h.sound.parent_live hn hp
    obtain ⟨o, ho, -, -, hchildren⟩ := h.children hpl
    exact ⟨hpl, o, ho, h.sound.mem_children hpl hchildren hn hp⟩

theorem TreeHeap.good_empty (heap : Nat → PlayTree) : (TreeHeap.empty heap).Good := by
  have hno : ∀ n, ¬ (TreeHeap.empty heap).Live n := fun n hn => Nat.not_lt_zero n hn.1
  refine ⟨⟨?_, ?_, ?_, ?_, ?_, ?_, ?_, ?_⟩, List.nodup_nil, by simp [TreeHeap.empty]⟩
  all_goals
    intro a
    intros
    exact absurd ‹_› (hno a)

theorem playTreeNew_good (h : s.Good) : (playTreeNew s).Good := by
  have hno : ¬ s.Live s.size := fun hn => Nat.lt_irrefl _ hn.1
  refine ⟨?_, h.nodup, fun n hn => Nat.lt_succ_of_lt (h.freed_lt n hn)⟩
  have hlinks : (playTreeNew s).links = s.links.fresh s.size := by
    unfold playTreeNew TreeHeap.links playTreeLinks Links.fresh
    congr 1
    all_goals
      funext m
      by_cases hm : m = s.size <;> simp [hm]
  have hlive : (playTreeNew s).Live = fun m => s.Live m ∨ m = s.size := by
    funext m
    refine propext ⟨fun hm => ?_, fun hm => ?_⟩
    · by_cases he : m = s.size
      · exact .inr he
      · exact .inl ⟨Nat.lt_of_le_of_ne (Nat.lt_succ_iff.1 hm.1) he, hm.2⟩
    · rcases hm with hm | rfl
      · exact ⟨Nat.lt_succ_of_lt hm.1, hm.2⟩
      · exact ⟨Nat.lt_succ_self _, fun hf => Nat.lt_irrefl _ (h.freed_lt _ hf)⟩
  rw [hlinks, hlive]
  exact h.sound.fresh hno

theorem playTreeAddFile_good (h : s.Good) (hpt : s.Live pt) (file : String) :
    ∃ s', playTreeAddFile s pt file = some s' ∧ s'.Good := by
  unfold playTreeAddFile
  split
  · exact ⟨s, rfl, h⟩
  · unfold TreeHeap.set
    rw [if_pos hpt]
    refine ⟨_, rfl, ?_, h.nodup, h.freed_lt⟩
    have hlinks : playTreeLinks (Function.update s.heap pt { s.heap pt with
        files := (s.heap pt).files ++ [file], entryType := .file }) = s.links := by
      unfold TreeHeap.links playTreeLinks
      congr 1
      all_goals
        funext m
        by_cases hm : m = pt <;> simp [hm]
    have hsound := h.sound
    rw [← hlinks] at hsound
    exact hsound

/-- The trees below a node. -/
theorem TreeHeap.Good.lead (h : s.Good) (hpt : s.Live pt) :
    ∃ below, Lead s pt none below ∧ ∃ beside,
      s.links.Linked (s.links.parent pt) (s.links.prev pt) (.cons pt below beside) := by
  obtain ⟨below, beside, hl, -, -⟩ := h.forest hpt
  obtain ⟨as, has⟩ := h.sound.ups hpt
  exact ⟨below, ⟨hl.2.1, hpt, fun x hx => (Option.some_ne_none x hx.symm).elim,
    fun _ => hl.1.2.2.1, hl.2.1.up_not_mem has rfl⟩, beside, hl⟩

theorem Lead.length_lt {below : Forest Nat} (hl : Lead s pt none below) (h : s.Good) :
    2 * below.nodes.length + 1 < s.fuel := by
  have hlen := TreeHeap.Good.length_le (hl.nodup h) (hl.mem_live h)
  unfold TreeHeap.fuel
  omega

theorem playTreeFree_good (h : s.Good) (hpt : s.Live pt) (children : Bool) :
    ∃ s', playTreeFree s.fuel s pt children = some s' ∧ s'.Good := by
  cases children with
  | true =>
    obtain ⟨below, hl, -⟩ := h.lead hpt
    obtain ⟨s', he, hg, -⟩ :=
      (freesAll below).free h hpt hl.linked (hl.child rfl) (hl.length_lt h)
    exact ⟨s', he, hg⟩
  | false =>
    obtain ⟨-, s', he, hg, -⟩ := playTreeDrop_eq h hpt
    exact ⟨s', he, hg⟩

theorem playTreeRemove_good (h : s.Good) (hpt : s.Live pt) (freeIt withChildren : Bool) :
    ∃ s', playTreeRemove s pt freeIt withChildren = some s' ∧ s'.Good := by
  unfold playTreeRemove
  rw [playTreeUnlink_eq h hpt]
  cases freeIt with
  | true => exact playTreeFree_good (h.unlink hpt) hpt withChildren
  | false => exact ⟨_, rfl, h.unlink hpt⟩

theorem playTreeCleanup_good (h : s.Good) (hpt : s.Live pt) :
    s.CleansUp pt ∧ ∃ s', (playTreeCleanup s.fuel s pt).map Prod.fst = some s' ∧ s'.Good := by
  obtain ⟨below, hl, beside, hlinked⟩ := h.lead hpt
  have hfuel := hl.length_lt h
  have hchild : (s.heap pt).child = below.head? := hl.child rfl
  cases hholds : Forest.holdsIn (holdsEntry s.heap) pt below with
  | true =>
    obtain ⟨s', he, ht⟩ := (trimsAll _ below).cleanup h hl rfl hholds hfuel
    refine ⟨⟨s', _, below, he, hl.linked, hchild, ht.good.nodup, ?_⟩, s', by rw [he]; rfl,
      ht.good⟩
    rw [if_pos hholds]
    exact ⟨rfl, ht⟩
  | false =>
    obtain ⟨as, has⟩ := h.sound.ups hpt
    obtain ⟨bs, rfl, hbs⟩ := has.tail
    have hv : playTreeIsValid s.heap s.fuel pt = some false := by
      rw [playTreeIsValid_eq hl.linked hchild (by omega), hholds]
    obtain ⟨s', hremove, hg, -, hfreed, hheap, -⟩ := playTreeRemove_eq h hpt hlinked hbs
    have he : playTreeCleanup s.fuel s pt = some (s', none) := by
      have hf : s.fuel = 2 * s.size + 2 + 1 := rfl
      rw [hf, playTreeCleanup, hv]
      simp only [Option.bind_eq_bind, Option.bind_some, Bool.false_eq_true, if_false, hremove]
    refine ⟨⟨s', _, below, he, hl.linked, hchild, hg.nodup, ?_⟩, s', by rw [he]; rfl, hg⟩
    rw [if_neg (by simp [hholds])]
    exact ⟨rfl, hfreed, hheap⟩

/-- A call that hangs no siblings on a parent with children keeps the heap sound. -/
theorem treeStep_good (h : s.Good) {op : TreeOp} (ha : s.Allowed op) (hleaf : s.HangsOnLeaf op) :
    ∃ s', treeStep s op = some s' ∧ s'.Good := by
  cases op with
  | new => exact ⟨_, rfl, playTreeNew_good h⟩
  | append pt entry =>
    rcases ha with ⟨rfl, -⟩ | ha
    · exact ⟨s, if_pos rfl, h⟩
    · exact playTreeAppendEntry_good h ha
  | prepend pt entry => exact playTreePrependEntry_good h ha
  | insert pt entry => exact playTreeInsertEntry_good h ha
  | setChild pt child =>
    cases pt with
    | none => exact ⟨s, rfl, h⟩
    | some p =>
      cases child with
      | none => exact ⟨s, rfl, h⟩
      | some c => exact playTreeSetChild_good h (ha p rfl c rfl)
  | setParent pt parent => exact playTreeSetParent_good h ha hleaf
  | remove pt freeIt withChildren => exact playTreeRemove_good h ha freeIt withChildren
  | free pt children =>
    cases pt with
    | none => exact ⟨s, rfl, h⟩
    | some n => exact playTreeFree_good h (ha n rfl) children
  | cleanup pt => exact (playTreeCleanup_good h ha).2
  | addFile pt file => exact playTreeAddFile_good h ha file

/-- The old children of a parent keep it as their parent, but are no longer found from it. -/
theorem playTreeSetParent_not_consistent (h : s.Good) {p c : Nat} (ha : s.CanHang p c)
    (hchild : (s.heap p).child ≠ none) {s' : TreeHeap} (he : playTreeSetParent s c p = some s') :
    ¬ s'.Consistent := by
  intro hcons
  obtain ⟨f, l, he', hrow, hlive, hfirst, hroot, -⟩ := playTreeSetParent_eq h ha
  cases he.symm.trans he'
  obtain ⟨o, ho⟩ := Option.ne_none_iff_exists'.1 hchild
  have hol : s.Live o := h.sound.child_live ha.p_live ho
  have hop := ((h.sound.child_iff ha.p_live hol).1 ho).1
  have hnot : o ∉ l := fun hm => by
    rw [h.sound.row_parent hrow hlive hm, hroot] at hop
    cases hop
  have hparent : ((s.relink (s.links.adopt p f l [])).heap o).parent = some p := by
    refine Eq.trans (b := if o ∈ l then some p else if o ∈ [] then none else s.links.parent o)
      rfl ?_
    rw [if_neg hnot, if_neg List.not_mem_nil]
    exact hop
  obtain ⟨-, m, hm, hom⟩ := hcons.reachable o p hol hparent
  have hhead : ((s.relink (s.links.adopt p f l [])).heap p).child = some f := if_pos rfl
  rw [hhead] at hm
  exact hnot (hm.subset (fun a hfa => Option.some_inj.1 hfa ▸ hrow.head)
    (fun a hal b hab => hrow.next_mem hal hab) o hom)

/-- Runs from a sound heap stay consistent if siblings are given to parents without children. -/
theorem TreeHeap.Good.staysConsistent {ops : List TreeOp} (h : s.Good)
    (ha : EachCall TreeHeap.Allowed s ops) (hleaf : EachCall TreeHeap.HangsOnLeaf s ops) :
    StaysConsistent s ops := by
  induction ops generalizing s with
  | nil => exact h.consistent
  | cons op ops ih =>
    obtain ⟨s', he, hg⟩ := treeStep_good h ha.1 hleaf.1
    refine ⟨h.consistent, ?_, s', he, ih hg (ha.2 s' he) (hleaf.2 s' he)⟩
    rintro pt rfl
    exact (playTreeCleanup_good h ha.1).1

/-- And only then. -/
theorem StaysConsistent.hangsOnLeaf {ops : List TreeOp} (hs : StaysConsistent s ops) (h : s.Good)
    (ha : EachCall TreeHeap.Allowed s ops) : EachCall TreeHeap.HangsOnLeaf s ops := by
  induction ops generalizing s with
  | nil => trivial
  | cons op ops ih =>
    obtain ⟨-, -, s1, he1, hs1⟩ := hs
    have hcons : s1.Consistent := by
      cases ops with
      | nil => exact hs1
      | cons => exact hs1.1
    have hleaf : s.HangsOnLeaf op := by
      cases op with
      | setParent pt parent =>
        refine Classical.byContradiction fun hno => ?_
        exact playTreeSetParent_not_consistent h ha.1 hno he1 hcons
      | _ => trivial
    obtain ⟨s2, he2, hg⟩ := treeStep_good h ha.1 hleaf
    cases he1.symm.trans he2
    refine ⟨hleaf, fun s' he' => ?_⟩
    cases he1.symm.trans he'
    exact ih hs1 hg (ha.2 s1 he1)

/-- Play trees stay consistent in exactly the runs that give no list of siblings to a parent that
has children. -/
theorem staysConsistent_iff (heap : Nat → PlayTree) (ops : List TreeOp)
    (ha : EachCall TreeHeap.Allowed (TreeHeap.empty heap) ops) :
    StaysConsistent (TreeHeap.empty heap) ops ↔
      EachCall TreeHeap.HangsOnLeaf (TreeHeap.empty heap) ops :=
  ⟨fun hs => hs.hangsOnLeaf (TreeHeap.good_empty heap) ha,
    fun hleaf => (TreeHeap.good_empty heap).staysConsistent ha hleaf⟩

theorem TreeHeap.canHang_roots {p c : Nat} (hp : s.Live p) (hc : s.Live c)
    (hpup : s.links.up p = none) (hcup : s.links.up c = none) (hne : p ≠ c) : s.CanHang p c :=
  ⟨hp, hc, (Option.or_eq_none_iff.1 hcup).2, Links.apart_of_roots hpup hcup hne⟩

/-- Memory in which nothing was stored. -/
def blankHeap (_ : Nat) : PlayTree := ⟨none, none, none, none, none, 0, [], .node, false, false⟩

/-- A tree with one file, which is cleaned up. -/
theorem staysConsistent_file :
    let ops : List TreeOp := [.new, .new, .addFile 1 "a.avi", .setParent 1 0, .cleanup 0]
    EachCall TreeHeap.Allowed (TreeHeap.empty blankHeap) ops ∧
      (StaysConsistent (TreeHeap.empty blankHeap) ops ↔
        EachCall TreeHeap.HangsOnLeaf (TreeHeap.empty blankHeap) ops) := by
  have ha : EachCall TreeHeap.Allowed (TreeHeap.empty blankHeap)
      [.new, .new, .addFile 1 "a.avi", .setParent 1 0, .cleanup 0] := by
    refine ⟨trivial, fun s hs => ?_⟩
    cases hs
    refine ⟨trivial, fun s hs => ?_⟩
    cases hs
    refine ⟨(by decide : TreeHeap.Live _ 1), fun s hs => ?_⟩
    cases hs
    refine ⟨TreeHeap.canHang_roots (by decide) (by decide) rfl rfl (by decide), fun s hs => ?_⟩
    cases hs
    exact ⟨(by decide : TreeHeap.Live _ 0), fun _ _ => trivial⟩
  exact ⟨ha, staysConsistent_iff blankHeap _ ha⟩

/-- The second tree hung below the first one hides the one that is there. -/
theorem not_staysConsistent_setParent :
    ¬ ∀ (heap : Nat → PlayTree) (ops : List TreeOp),
      EachCall TreeHeap.Allowed (TreeHeap.empty heap) ops →
        StaysConsistent (TreeHeap.empty heap) ops := by
  intro h
  have ha : EachCall TreeHeap.Allowed (TreeHeap.empty blankHeap)
      [.new, .new, .new, .setParent 1 0, .setParent 2 0] := by
    refine ⟨trivial, fun s hs => ?_⟩
    cases hs
    refine ⟨trivial, fun s hs => ?_⟩
    cases hs
    refine ⟨trivial, fun s hs => ?_⟩
    cases hs
    refine ⟨TreeHeap.canHang_roots (by decide) (by decide) rfl rfl (by decide), fun s hs => ?_⟩
    cases hs
    exact ⟨TreeHeap.canHang_roots (by decide) (by decide) rfl rfl (by decide), fun _ _ => trivial⟩
  have hleaf := (h blankHeap _ ha).hangsOnLeaf (TreeHeap.good_empty _) ha
  have hno := (((((hleaf.2 _ rfl).2 _ rfl).2 _ rfl).2 _ rfl).1)
  cases hno

end MPlayer
