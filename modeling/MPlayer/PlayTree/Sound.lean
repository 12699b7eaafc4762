import MPlayer.PlayTree.Edit

/-!
# Operations on sound play trees

The operations keep the links of the nodes sound, except for `play_tree_set_parent` with a parent
that has children already.  A subtree is freed node by node, each of them once.
-/

namespace MPlayer

open Lib

/-! ## Operations on sound heaps -/

variable {s : TreeHeap}

theorem TreeHeap.Good.relink (h : s.Good) {L : Links Nat} (hL : L.Sound s.Live) :
    (s.relink L).Good :=
  ⟨hL, h.nodup, h.freed_lt⟩

variable {pt p entry c : Nat}

theorem TreeHeap.Good.unlink (h : s.Good) (hpt : s.Live pt) : (s.relink (s.links.unlink pt)).Good :=
  h.relink (h.sound.unlink hpt)

/-- The siblings from a first one on are its row. -/
theorem TreeHeap.Good.row (h : s.Good) {f : Nat} (hf : s.links.prev f = none) {l : List Nat}
    (hl : Path s.links.next (some f) l) (hlive : ∀ n ∈ l, s.Live n) : s.links.Row f l := by
  obtain ⟨l', rfl, -⟩ := hl.head
  have hps : Path s.links.prev (some f) [f] := .cons (hf ▸ .nil)
  have hrow := h.sound.row (f := f) hps hl rfl fun b hb => hlive b (by simpa using hb)
  exact hrow.congr fun a => by simp

/-- The children of a node, as the loops over them take them. -/
theorem TreeHeap.Good.children (h : s.Good) (hp : s.Live p) :
    ∃ o, Path s.links.next (s.links.child p) o ∧ o.length < s.fuel ∧ (∀ n ∈ o, s.Live n) ∧
      s.links.Children p o := by
  obtain ⟨o, ho, hlen, hlive⟩ := h.path_next fun n hn => h.sound.child_live hp hn
  refine ⟨o, ho, hlen, hlive, ?_⟩
  unfold Links.Children
  cases hc : s.links.child p with
  | none =>
    rw [hc] at ho
    cases ho
    rfl
  | some c =>
    rw [hc] at ho
    exact h.row ((h.sound.child_iff hp (h.sound.child_live hp hc)).1 hc).2 ho hlive

/-- The first sibling of a node. -/
theorem TreeHeap.Good.first (h : s.Good) {n : Nat} (hn : s.Live n) :
    ∃ l f, Path s.links.prev (some n) l ∧ l.length < s.fuel ∧ l.getLast? = some f ∧
      (∀ m ∈ l, s.Live m) ∧ s.links.prev f = none ∧ ∃ as, s.links.Ups (some n) as ∧ f ∈ as := by
  obtain ⟨l, hl, hlen, hlive, as, has, hpre⟩ := h.path_prev hn
  obtain ⟨l', rfl, -⟩ := hl.head
  obtain ⟨f, hf⟩ : ∃ f, (n :: l').getLast? = some f := ⟨_, List.getLast?_cons⟩
  have hlast := hl.last hf
  exact ⟨_, f, hl, hlen, hf, hlive, hlast.1, as, has, hpre.subset hlast.2⟩

theorem TreeHeap.Good.insertAfter (h : s.Good) {x e : Nat} (hx : s.Live x) (he : s.Live e)
    (hd : s.links.Detached e) (ha : s.links.Apart x e) :
    (s.relink (s.links.insertAfter x e)).Good :=
  h.relink (h.sound.insertAfter hx he hd ha)

/-- An entry that hangs nowhere is added to a tree it is not the root of. -/
structure TreeHeap.CanAdd (s : TreeHeap) (pt entry : Nat) : Prop where
  pt_live : s.Live pt
  entry_live : s.Live entry
  detached : s.links.Detached entry
  apart : s.links.Apart pt entry

theorem playTreeAppendEntry_good (h : s.Good) (ha : s.CanAdd pt entry) :
    ∃ s', playTreeAppendEntry s pt entry = some s' ∧ s'.Good := by
  obtain ⟨hpt, he, hd, ha⟩ := ha
  obtain ⟨as, has⟩ := h.sound.ups hpt
  obtain ⟨l, hl, hlen, hlive⟩ := h.path_next (o := some pt) fun n hn =>
    Option.some_inj.1 hn ▸ hpt
  obtain ⟨l', rfl, -⟩ := hl.head
  obtain ⟨x, hx⟩ : ∃ x, (pt :: l').getLast? = some x := ⟨_, List.getLast?_cons⟩
  obtain ⟨hend, hmem⟩ := hl.last hx
  have hxl := hlive x hmem
  obtain ⟨bs, hbs, hpbs⟩ := h.sound.ups_of_next hpt has
    (has.tail.choose_spec.1 ▸ List.mem_cons_self) hl x hmem
  have hax := ha.of_below hbs hpbs
  have hxe : x ≠ entry := hax.ne ⟨bs, hbs⟩
  refine ⟨_, ?_, h.insertAfter hxl he hd hax⟩
  have hfar : playTreeFarthest (fun n => (s.heap n).next) s.fuel pt = some x :=
    (playTreeFarthest_path hl (Nat.le_of_lt hlen)).trans hx
  have hend : (s.heap x).next = none := hend
  unfold playTreeAppendEntry
  rw [if_neg (ha.ne ⟨as, has⟩)]
  simp only [Option.bind_eq_bind, hfar, TreeHeap.set, TreeHeap.live_mk, hxl, he, if_true,
    Option.bind_some]
  refine TreeHeap.eq_relink fun m => ?_
  apply PlayTree.ext <;> simp only [Links.insertAfter, TreeHeap.links, playTreeLinks,
    Function.update_apply] <;> grind

theorem playTreePrependEntry_good (h : s.Good) (ha : s.CanAdd pt entry) :
    ∃ s', playTreePrependEntry s pt entry = some s' ∧ s'.Good := by
  obtain ⟨hpt, he, hd, ha⟩ := ha
  obtain ⟨l, x, hl, hlen, hx, hlive, hfirst, as, has, hxas⟩ := h.first hpt
  have hax := ha.of_above has hxas
  have hxl := hlive x (hl.last hx).2
  have hxe : x ≠ entry := hax.ne (h.sound.ups hxl)
  refine ⟨_, ?_, h.relink (h.sound.insertBefore hxl he hfirst hd hax)⟩
  have hfar : playTreeFarthest (fun n => (s.heap n).prev) s.fuel pt = some x :=
    (playTreeFarthest_path hl (Nat.le_of_lt hlen)).trans hx
  have hfirst : (s.heap x).prev = none := hfirst
  obtain ⟨hd1, hd2, hd3⟩ := hd
  have hd2 : (s.heap entry).prev = none := hd2
  have hd3 : (s.heap entry).next = none := hd3
  unfold playTreePrependEntry
  cases hparent : (s.heap x).parent with
  | none =>
    simp only [Option.bind_eq_bind, hfar, TreeHeap.set, TreeHeap.live_mk, hxl, he, if_true,
      Option.bind_some, Function.update_of_ne hxe.symm, Function.update_self, hparent,
      TreeHeap.setIf]
    refine TreeHeap.eq_relink fun m => ?_
    apply PlayTree.ext <;> simp only [Links.insertBefore, TreeHeap.links, playTreeLinks,
      Function.update_apply] <;> grind
  | some p =>
    have hpl : s.Live p := h.sound.parent_live hxl hparent
    have hup : s.links.up x = some p := by
      have hup : s.links.up x = (s.heap x).prev.or (s.heap x).parent := rfl
      rw [hup, hfirst, hparent]
      rfl
    have hxp := h.ne_up hxl hup
    have hpe : p ≠ entry := by
      obtain ⟨bs, hbs⟩ := h.sound.ups hxl
      obtain ⟨cs, rfl, hcs⟩ := hbs.tail
      rw [hup] at hcs
      have hmem : p ∈ x :: cs :=
        List.mem_cons_of_mem x (hcs.tail.choose_spec.1 ▸ List.mem_cons_self)
      exact (hax.of_above hbs hmem).ne (h.sound.ups hpl)
    simp only [Option.bind_eq_bind, hfar, TreeHeap.set, TreeHeap.live_mk, hxl, he, hpl, if_true,
      Option.bind_some, Function.update_of_ne hxe.symm, Function.update_self, hparent,
      TreeHeap.setIf]
    refine TreeHeap.eq_relink fun m => ?_
    apply PlayTree.ext <;> simp only [Links.insertBefore, TreeHeap.links, playTreeLinks,
      Function.update_apply] <;> grind

theorem playTreeInsertEntry_good (h : s.Good) (ha : s.CanAdd pt entry) :
    ∃ s', playTreeInsertEntry s pt entry = some s' ∧ s'.Good := by
  obtain ⟨hpt, he, hd, ha⟩ := ha
  have hne : pt ≠ entry := ha.ne (h.sound.ups hpt)
  refine ⟨_, ?_, h.insertAfter hpt he hd ha⟩
  unfold playTreeInsertEntry
  cases hnext : (s.heap pt).next with
  | none =>
    simp only [Option.bind_eq_bind, TreeHeap.set, TreeHeap.live_mk, hpt, he, if_true,
      Option.bind_some, Function.update_of_ne hne, hnext]
    refine TreeHeap.eq_relink fun m => ?_
    apply PlayTree.ext <;> simp only [Links.insertAfter, TreeHeap.links, playTreeLinks,
      Function.update_apply] <;> grind
  | some n =>
    have hnl : s.Live n := h.sound.next_live hpt hnext
    have hup := h.sound.up_next hpt hnext
    have hnp := h.ne_up hnl hup
    have hnen : n ≠ entry := by
      rintro rfl
      have hprev := (h.sound.next_iff hpt hnl).1 hnext
      rw [hd.2.1] at hprev
      cases hprev
    simp only [Option.bind_eq_bind, TreeHeap.set, TreeHeap.live_mk, hpt, he, hnl, if_true,
      Option.bind_some, Function.update_of_ne hne, hnext]
    refine TreeHeap.eq_relink fun m => ?_
    apply PlayTree.ext <;> simp only [Links.insertAfter, TreeHeap.links, playTreeLinks,
      Function.update_apply] <;> grind

/-! ## Lists of siblings -/

/-- A list of siblings without a parent is hung below a node of another tree. -/
structure TreeHeap.CanHang (s : TreeHeap) (p c : Nat) : Prop where
  p_live : s.Live p
  c_live : s.Live c
  root : s.links.parent c = none
  apart : s.links.Apart p c

theorem TreeHeap.set_child {n : Nat} (hn : s.Live n) (q : Option Nat) :
    (s.set n fun c => { c with child := q }) =
      some (s.relink { s.links with child := fun m => if m = n then q else s.links.child m }) := by
  unfold TreeHeap.set
  rw [if_pos hn]
  refine TreeHeap.eq_relink fun m => ?_
  by_cases hm : m = n
  · subst hm
    simp [TreeHeap.links, playTreeLinks]
  · simp [TreeHeap.links, playTreeLinks, hm]

theorem playTreeSetChild_good (h : s.Good) (ha : s.CanHang p c) :
    ∃ s', playTreeSetChild s (some p) (some c) = some s' ∧ s'.Good := by
  obtain ⟨hp, hc, hroot, ha⟩ := ha
  obtain ⟨o, ho, holen, hol, hchildren⟩ := h.children hp
  obtain ⟨l', f, hl', hlen', hf, hlive', hfirst, as, has, hfas⟩ := h.first hc
  have hfl := hlive' f (hl'.last hf).2
  obtain ⟨l, hl, hlen, hlive⟩ := h.path_next (o := some f) fun n hn => Option.some_inj.1 hn ▸ hfl
  have hrow := h.row hfirst hl hlive
  have hfroot : s.links.parent f = none := by
    obtain ⟨ns, hns, -, hnl⟩ := h.path_next (o := some c) fun n hn => Option.some_inj.1 hn ▸ hc
    have hall := h.sound.row hl' hns hf fun b hb =>
      (List.mem_append.1 hb).elim (hlive' b) (hnl b)
    obtain ⟨l'', rfl, -⟩ := hl'.head
    have hcmem : c ∈ c :: l'' ++ ns := List.mem_cons_self
    have hcl : ∀ b ∈ c :: l'' ++ ns, s.Live b := fun b hb =>
      (List.mem_append.1 hb).elim (hlive' b) (hnl b)
    rw [← h.sound.row_parent hall hcl hcmem, hroot]
  have hapart : s.links.Apart p f := (ha.symm.of_above has hfas).symm
  refine ⟨_, ?_, h.relink (h.sound.adopt hp hrow hlive hfirst hfroot hchildren hol hapart)⟩
  unfold playTreeSetChild
  have hfar : playTreeFarthest (fun n => (s.heap n).prev) s.fuel c = some f :=
    (playTreeFarthest_path hl' (Nat.le_of_lt hlen')).trans hf
  -- the pointers that the loops follow do not change
  let s1 := s.relink (s.links.reparent o none)
  have hfar1 : playTreeFarthest (fun n => (s1.heap n).prev) s1.fuel c = some f := hfar
  let s2 := s1.relink { s1.links with child := fun m => if m = p then some f else s1.links.child m }
  have h1 : playTreeReparent s.fuel s (s.heap p).child none = some s1 :=
    playTreeReparent_eq ho hol holen none
  have h2 : (s1.set p fun c => { c with child := some f }) = some s2 :=
    TreeHeap.set_child (s := s1) hp _
  have h3 := @playTreeReparent_eq s2 (some f) l hl hlive s2.fuel hlen (some p)
  simp only [Option.bind_eq_bind, h1, Option.bind_some, hfar1, h2, h3]
  rfl

/-- What `play_tree_set_parent` does, whether or not the parent has children. -/
theorem playTreeSetParent_eq (h : s.Good) (ha : s.CanHang p c) :
    ∃ f l, playTreeSetParent s c p = some (s.relink (s.links.adopt p f l [])) ∧
      s.links.Row f l ∧ (∀ n ∈ l, s.Live n) ∧ s.links.prev f = none ∧ s.links.parent f = none ∧
      s.links.Apart p f := by
  obtain ⟨hp, hc, hroot, ha⟩ := ha
  obtain ⟨l', f, hl', hlen', hf, hlive', hfirst, as, has, hfas⟩ := h.first hc
  obtain ⟨ns, hns, hnlen, hnl⟩ := h.path_next (o := some c) fun n hn => Option.some_inj.1 hn ▸ hc
  have hlive : ∀ b ∈ l' ++ ns, s.Live b := fun b hb =>
    (List.mem_append.1 hb).elim (hlive' b) (hnl b)
  have hrow := h.sound.row hl' hns hf hlive
  obtain ⟨ps, rfl, hps⟩ := hl'.head
  obtain ⟨ns', rfl, -⟩ := hns.head
  have hfroot : s.links.parent f = none := by
    rw [← h.sound.row_parent hrow hlive (List.mem_append_left _ List.mem_cons_self), hroot]
  have hapart : s.links.Apart p f := (ha.symm.of_above has hfas).symm
  have hmem : ∀ a, a ∈ c :: ps ++ c :: ns' ↔ a ∈ (c :: ns') ++ ps := fun a => by
    simp only [List.cons_append, List.mem_cons, List.mem_append]
    tauto
  refine ⟨f, (c :: ns') ++ ps, ?_, hrow.congr hmem, fun n hn => hlive n ((hmem n).2 hn), hfirst,
    hfroot, hapart⟩
  let s1 := s.relink (s.links.reparent (c :: ns') (some p))
  have h1 : playTreeReparent s.fuel s (some c) (some p) = some s1 :=
    playTreeReparent_eq hns hnl hnlen (some p)
  have hroot' : (s.heap c).parent = none := hroot
  unfold playTreeSetParent
  simp only [Option.bind_eq_bind, hroot', TreeHeap.setIf, Option.bind_some, h1]
  have hprev : (s1.heap c).prev = s.links.prev c := rfl
  rw [hprev]
  have hdone : ∀ {l : List Nat}, some { s.relink (s.links.reparent l (some p)) with
      heap := relinked s.heap { s.links.reparent l (some p) with
        child := fun m => if m = p then some f else s.links.child m } } =
      some (s.relink (s.links.adopt p f l [])) := by
    intro l
    have hL : { s.links.reparent l (some p) with
        child := fun m => if m = p then some f else s.links.child m } =
        s.links.adopt p f l [] := by
      simp [Links.adopt, Links.reparent]
    rw [hL]
    rfl
  cases hq : s.links.prev c with
  | none =>
    rw [hq] at hps
    cases hps
    cases hf
    rw [List.append_nil]
    exact (TreeHeap.set_child (s := s1) hp (some c)).trans hdone
  | some q =>
    rw [hq] at hps
    have hne : ps ≠ [] := by
      rintro rfl
      cases hps
    have hf' : ps.getLast? = some f := by
      rw [← hf, List.getLast?_cons_of_ne_nil hne]
    let s2 := s1.relink (s1.links.reparent ps (some p))
    have h2 : playTreeReparentBack s1.fuel s1 q p = some (s2, f) :=
      playTreeReparentBack_eq (s := s1) hps (fun n hn => hlive' n (List.mem_cons_of_mem c hn))
        (Nat.le_of_lt (Nat.lt_of_succ_lt hlen')) p hf'
    simp only [h2, Option.bind_some]
    have h3 := TreeHeap.set_child (s := s2) hp (some f)
    refine h3.trans (Eq.trans ?_ hdone)
    have hL : s2.links = s.links.reparent ((c :: ns') ++ ps) (some p) :=
      Links.reparent_reparent _ _ _ _
    rw [hL]
    rfl

theorem playTreeSetParent_good (h : s.Good) (ha : s.CanHang p c) (hchild : s.links.child p = none) :
    ∃ s', playTreeSetParent s c p = some s' ∧ s'.Good := by
  obtain ⟨f, l, he, hrow, hlive, hfirst, hroot, hapart⟩ := playTreeSetParent_eq h ha
  refine ⟨_, he, h.relink (h.sound.adopt ha.p_live hrow hlive hfirst hroot ?_ (by simp) hapart)⟩
  unfold Links.Children
  rw [hchild]

/-! ## Freeing -/

/-- A node goes, and its children lose their parent. -/
theorem playTreeDrop_eq (h : s.Good) (hpt : s.Live pt) :
    ∃ o s', playTreeDrop s pt = some s' ∧ s'.Good ∧ s'.size = s.size ∧ s'.freed = pt :: s.freed ∧
      s'.heap = relinked s.heap ((s.links.unlink pt).reparent o none) ∧
      (s.links.child pt = none → o = []) := by
  let s1 := s.relink (s.links.unlink pt)
  have h1 : s1.Good := h.unlink hpt
  have hp1 : s1.Live pt := hpt
  obtain ⟨o, ho, holen, hol, hchildren⟩ := h1.children hp1
  have hd : s1.links.Detached pt := by
    refine ⟨?_, ?_, ?_⟩
    all_goals exact if_pos rfl
  have hsound := h1.sound.orphan hp1 hd hchildren hol
  have h2 : playTreeReparent s1.fuel s1 (s1.heap pt).child none =
      some (s1.relink (s1.links.reparent o none)) := playTreeReparent_eq ho hol holen none
  refine ⟨o, { s1.relink (s1.links.reparent o none) with freed := pt :: s.freed }, ?_, ?_, rfl,
    rfl, rfl, fun hnone => ?_⟩
  · unfold playTreeDrop
    rw [playTreeUnlink_eq h hpt]
    simp only [Option.bind_eq_bind, Option.bind_some]
    refine (congrArg (fun r => Option.bind r _) h2).trans ?_
    exact if_pos hpt
  · refine ⟨?_, List.nodup_cons.2 ⟨hpt.2, h.nodup⟩, fun n hn => ?_⟩
    · have hiff : (fun m => s1.Live m ∧ m ≠ pt) =
          TreeHeap.Live { s1.relink (s1.links.reparent o none) with freed := pt :: s.freed } := by
        funext m
        simp only [TreeHeap.Live, List.mem_cons, not_or, eq_iff_iff]
        exact ⟨fun hm => ⟨hm.1.1, hm.2, hm.1.2⟩, fun hm => ⟨⟨hm.1, hm.2.2⟩, hm.2.1⟩⟩
      exact hiff ▸ hsound
    · rcases List.mem_cons.1 hn with rfl | hn
      · exact hpt.1
      · exact h.freed_lt n hn
  · have hc : s1.links.child pt = none := by
      have hne : ¬ (s.links.prev pt = none ∧ s.links.parent pt = some pt) := fun hpp => by
        refine h.ne_up hpt ?_ rfl
        rw [Links.up, hpp.1, hpp.2]
        rfl
      exact (if_neg hne).trans hnone
    rw [hc] at ho
    cases ho
    rfl

/-- Taking a node out changes its neighbours only by its own pointers to them. -/
theorem relinked_unlink_congr {heap heap' : Nat → PlayTree} {a m : Nat}
    (hparent : (heap' a).parent = (heap a).parent) (hprev : (heap' a).prev = (heap a).prev)
    (hnext : (heap' a).next = (heap a).next) (hm : heap' m = heap m) (hma : m ≠ a) :
    relinked heap' ((playTreeLinks heap').unlink a) m =
      relinked heap ((playTreeLinks heap).unlink a) m := by
  simp only [relinked, Links.unlink, playTreeLinks, hparent, hprev, hnext, hm, if_neg hma]
  apply PlayTree.ext <;> grind

/-- The loop that frees the trees `f` below a node frees each of their nodes once, and the node
has no children in the end. -/
def FreesAll (f : Forest Nat) : Prop :=
  ∀ (s : TreeHeap) (p fuel : Nat), s.Good → s.Live p → s.links.Linked (some p) none f →
    s.links.child p = f.head? → 2 * f.nodes.length < fuel →
    ∃ s', playTreeFreeLoop fuel s f.head? = some s' ∧ s'.Good ∧ s'.size = s.size ∧
      s'.freed.Perm (f.nodes ++ s.freed) ∧
      (∀ m, m ∉ f.nodes →
        s'.heap m = if m = p then { s.heap p with child := none } else s.heap m) ∧
      ∀ m, (s'.heap m).entryType = (s.heap m).entryType

/-- Then a node is freed with the trees below it. -/
theorem FreesAll.free {below : Forest Nat} (hall : FreesAll below) {a fuel : Nat} (h : s.Good)
    (ha : s.Live a) (hl : s.links.Linked (some a) none below)
    (hc : s.links.child a = below.head?) (hfuel : 2 * below.nodes.length + 1 < fuel) :
    ∃ s', playTreeFree fuel s a true = some s' ∧ s'.Good ∧ s'.size = s.size ∧
      s'.freed.Perm (a :: below.nodes ++ s.freed) ∧
      (∀ m, m ∉ a :: below.nodes → s'.heap m = relinked s.heap (s.links.unlink a) m) ∧
      ∀ m, (s'.heap m).entryType = (s.heap m).entryType := by
  obtain ⟨fuel, rfl⟩ : ∃ f, fuel = f + 1 := ⟨fuel - 1, by omega⟩
  obtain ⟨as, has⟩ := h.sound.ups ha
  have hnot : a ∉ below.nodes := hl.up_not_mem has rfl
  obtain ⟨s1, h1, hg1, hsize1, hfreed1, hheap1, htype1⟩ := hall s a fuel h ha hl hc (by omega)
  have ha1 : s1.Live a := by
    refine ⟨hsize1 ▸ ha.1, fun hm => ?_⟩
    rcases List.mem_append.1 (hfreed1.mem_iff.1 hm) with hm | hm
    · exact hnot hm
    · exact ha.2 hm
  have hcell : s1.heap a = { s.heap a with child := none } := by
    rw [hheap1 a hnot, if_pos rfl]
  have hset : (s1.set a fun c => { c with child := none }) = some s1 := by
    unfold TreeHeap.set
    have hself : ({ s1.heap a with child := none } : PlayTree) = s1.heap a := by rw [hcell]
    rw [if_pos ha1]
    simp only [hself, Function.update_eq_self]
  obtain ⟨o, s2, h2, hg2, hsize2, hfreed2, hheap2, ho⟩ := playTreeDrop_eq hg1 ha1
  have hc1 : s1.links.child a = none := congrArg PlayTree.child hcell
  rw [ho hc1, Links.reparent_nil] at hheap2
  refine ⟨s2, ?_, hg2, hsize2.trans hsize1, ?_, fun m hm => ?_, fun m => ?_⟩
  · have hchild : (s.heap a).child = below.head? := hc
    simp only [playTreeFree, Option.bind_eq_bind, if_true, hchild, h1, Option.bind_some, hset, h2]
  · rw [hfreed2]
    exact hfreed1.cons a
  · rw [List.mem_cons, not_or] at hm
    rw [hheap2]
    refine relinked_unlink_congr ?_ ?_ ?_ ?_ hm.1
    · rw [hcell]
    · rw [hcell]
    · rw [hcell]
    · rw [hheap1 m hm.2, if_neg hm.1]
  · rw [hheap2]
    exact htype1 m

theorem freesAll : ∀ f : Forest Nat, FreesAll f
  | .nil => by
    intro s p fuel h hp hl hc hfuel
    obtain ⟨fuel, rfl⟩ : ∃ f, fuel = f + 1 := ⟨fuel - 1, by omega⟩
    refine ⟨s, rfl, h, rfl, List.Perm.refl _, fun m _ => ?_, fun _ => rfl⟩
    split
    · rename_i hmp
      have hchild : (s.heap p).child = none := hc
      rw [hmp, ← hchild]
    · rfl
  | .cons a below beside => by
    intro s p fuel h hp hl hc hfuel
    simp only [Forest.nodes, List.length_cons, List.length_append] at hfuel
    obtain ⟨fuel, rfl⟩ : ∃ f, fuel = f + 1 := ⟨fuel - 1, by omega⟩
    obtain ⟨as, has⟩ := h.sound.ups hp
    have hpn := hl.up_not_mem has rfl
    have hnd := hl.nodup has
    have hlive := hl.mem_live h.sound fun b hb => h.sound.child_live hp (hc.trans hb)
    rw [Forest.nodes, List.nodup_cons, List.nodup_append] at hnd
    obtain ⟨hab, -, -, hdisj⟩ := hnd
    simp only [List.mem_append, not_or] at hab
    simp only [Forest.nodes, List.mem_cons, List.mem_append, not_or] at hpn
    have ha := hlive a List.mem_cons_self
    obtain ⟨s1, h1, hg1, hsize1, hfreed1, hheap1, htype1⟩ :=
      (freesAll below).free h ha hl.2.1 hl.1.2.2.1 (by omega : _ < fuel)
    have hout : ∀ m, m ∈ beside.nodes → m ∉ a :: below.nodes := fun m hm => by
      rw [List.mem_cons, not_or]
      exact ⟨fun he => hab.2 (he ▸ hm), fun hb => hdisj m hb m hm rfl⟩
    have hpout : p ∉ a :: below.nodes := by
      rw [List.mem_cons, not_or]
      exact ⟨hpn.1, hpn.2.1⟩
    -- the other trees come to the front
    have hl1 : s1.links.Linked (some p) none beside := by
      refine (hl.unlink has).1.congr fun m hm => ?_
      have hm1 := hheap1 m (hout m hm)
      simp only [TreeHeap.links, playTreeLinks, hm1, relinked, and_self]
    have hpa : s.links.prev a = none ∧ s.links.parent a = some p := ⟨hl.1.2.1, hl.1.1⟩
    have hcellp : s1.heap p = { s.heap p with child := s.links.next a } := by
      rw [hheap1 p hpout]
      have hnp : s.links.next a ≠ some p := fun he => by
        have hhead := hl.1.2.2.2.symm.trans he
        cases beside with
        | nil => cases hhead
        | cons b ds bs =>
          cases hhead
          exact hpn.2.2 List.mem_cons_self
      apply PlayTree.ext <;> simp [relinked, Links.unlink, hpa, hpn.1, hnp]
      all_goals rfl
    have hp1 : s1.Live p := by
      refine ⟨hsize1 ▸ hp.1, fun hm => ?_⟩
      rcases List.mem_append.1 (hfreed1.mem_iff.1 hm) with hm | hm
      · exact hpout hm
      · exact hp.2 hm
    have hc1 : s1.links.child p = beside.head? :=
      (congrArg PlayTree.child hcellp).trans hl.1.2.2.2
    obtain ⟨s2, h2, hg2, hsize2, hfreed2, hheap2, htype2⟩ :=
      freesAll beside s1 p fuel hg1 hp1 hl1 hc1 (by omega)
    refine ⟨s2, ?_, hg2, hsize2.trans hsize1, ?_, fun m hm => ?_, fun m =>
      (htype2 m).trans (htype1 m)⟩
    · have hnext : (s.heap a).next = beside.head? := hl.1.2.2.2
      simp only [Forest.head?, playTreeFreeLoop, Option.bind_eq_bind, h1, Option.bind_some, hnext]
      exact h2
    · rw [Forest.nodes]
      refine hfreed2.trans ((List.Perm.append_left _ hfreed1).trans ?_)
      rw [List.cons_append, List.cons_append, List.append_assoc]
      refine List.perm_middle.trans (List.Perm.cons a ?_)
      rw [← List.append_assoc, ← List.append_assoc]
      exact List.perm_append_comm.append_right _
    · simp only [Forest.nodes, List.mem_cons, List.mem_append, not_or] at hm
      rw [hheap2 m hm.2.2]
      by_cases hmp : m = p
      · rw [if_pos hmp, if_pos hmp, hcellp]
      · rw [if_neg hmp, if_neg hmp, hheap1 m (by simp [hm.1, hm.2.1])]
        have hnm : s.links.next a ≠ some m := fun he => by
          have hhead := hl.1.2.2.2.symm.trans he
          cases beside with
          | nil => cases hhead
          | cons b ds bs =>
            cases hhead
            exact hm.2.2 List.mem_cons_self
        have hpm : p ≠ m := Ne.symm hmp
        apply PlayTree.ext <;> simp [relinked, Links.unlink, hpa, hm.1, hnm, hpm]
        all_goals rfl

end MPlayer
