import MPlayer.Lib.Forest
import Mathlib.Data.List.Perm.Subperm

/-!
# Relinking nodes

`Links.Sound` says that the pointers of the live nodes agree with each other and lead up to a root.
The operations on linked nodes are functions of the links: a node is taken out, put behind or in
front of another one, a list of siblings is hung below a node, and a node goes out of use.  Each
of them keeps the links sound.

A live node has a forest below and beside it if there are finitely many (`Links.Sound.forest`).
-/

namespace Lib

universe u

variable {α : Type u} {L L' : Links α} {live : α → Prop}

/-! ## Ways up -/

theorem Links.Ups.tail {a : α} {as : List α} (h : L.Ups (some a) as) :
    ∃ bs, as = a :: bs ∧ L.Ups (L.up a) bs := by
  cases h with
  | cons h => exact ⟨_, rfl, h⟩

variable {o : Option α} {as l : List α} {b a f : α}

/-- The way from a node on a way is the rest of it. -/
theorem Links.Ups.suffix (h : L.Ups o as) (hb : b ∈ as) :
    ∃ pre bs, as = pre ++ b :: bs ∧ L.Ups (some b) (b :: bs) := by
  induction h with
  | nil => cases hb
  | cons h ih =>
    rename_i a as
    rcases List.mem_cons.1 hb with rfl | hb
    · exact ⟨[], as, rfl, .cons h⟩
    · obtain ⟨pre, bs, rfl, hbs⟩ := ih hb
      exact ⟨a :: pre, bs, rfl, hbs⟩

/-- The way from a node on a way leads over what comes later. -/
theorem Links.Ups.over {pre rest : List α} (h : L.Ups o (pre ++ rest)) {c : α} (hc : c ∈ pre) :
    ∃ mid, L.Ups (some c) (c :: mid ++ rest) := by
  induction pre generalizing o with
  | nil => cases hc
  | cons x pre ih =>
    cases h with
    | cons h =>
      rcases List.mem_cons.1 hc with rfl | hc
      · exact ⟨pre, .cons h⟩
      · exact ih h hc

theorem Links.Ups.nodup (h : L.Ups o as) : as.Nodup := by
  induction h with
  | nil => exact List.nodup_nil
  | cons h ih =>
    rename_i a as
    refine List.nodup_cons.2 ⟨fun hmem => ?_, ih⟩
    obtain ⟨pre, bs, rfl, hbs⟩ := h.suffix hmem
    have hlen := congrArg List.length (hbs.unique (.cons h))
    simp only [List.length_cons, List.length_append] at hlen
    omega

/-- A way is kept where the next node is. -/
theorem Links.Ups.congr (h : L.Ups o as) (hup : ∀ a ∈ as, L'.up a = L.up a) : L'.Ups o as := by
  induction h with
  | nil => exact .nil
  | cons h ih =>
    refine .cons ?_
    rw [hup _ List.mem_cons_self]
    exact ih fun b hb => hup b (List.mem_cons_of_mem _ hb)

/-- There is a way if there is one from every node on the old way that has another one above it
now. -/
theorem Links.Ups.reroute (h : L.Ups o as)
    (hup : ∀ a ∈ as, L'.up a = L.up a ∨ ∃ bs, L'.Ups (some a) bs) : ∃ bs, L'.Ups o bs := by
  induction h with
  | nil => exact ⟨[], .nil⟩
  | cons h ih =>
    obtain ⟨bs, hbs⟩ := ih fun b hb => hup b (List.mem_cons_of_mem _ hb)
    rcases hup _ List.mem_cons_self with he | hex
    · exact ⟨_, .cons (he ▸ hbs)⟩
    · exact hex

/-! ## Sound links -/

/-- The pointers of live nodes lead to live nodes and agree, and there is a way up. -/
structure Links.Sound (L : Links α) (live : α → Prop) : Prop where
  parent_live : ∀ {a b}, live a → L.parent a = some b → live b
  child_live : ∀ {a b}, live a → L.child a = some b → live b
  next_live : ∀ {a b}, live a → L.next a = some b → live b
  prev_live : ∀ {a b}, live a → L.prev a = some b → live b
  next_iff : ∀ {a b}, live a → live b → (L.next a = some b ↔ L.prev b = some a)
  sibling : ∀ {a b}, live a → L.next a = some b → L.parent b = L.parent a
  child_iff : ∀ {p c}, live p → live c →
    (L.child p = some c ↔ L.parent c = some p ∧ L.prev c = none)
  ups : ∀ {a}, live a → ∃ as, L.Ups (some a) as

theorem Links.Sound.up_live (h : L.Sound live) (ha : live a) (hup : L.up a = some b) : live b := by
  unfold Links.up at hup
  cases hprev : L.prev a with
  | some q =>
    rw [hprev] at hup
    exact h.prev_live ha (hprev.trans hup)
  | none =>
    rw [hprev] at hup
    exact h.parent_live ha hup

theorem Links.Sound.ups_live (h : L.Sound live) (hups : L.Ups o as)
    (ho : ∀ a, o = some a → live a) : ∀ b ∈ as, live b := by
  induction hups with
  | nil => exact fun b hb => absurd hb List.not_mem_nil
  | cons hups ih =>
    rename_i a as
    have ha := ho a rfl
    intro b hb
    rcases List.mem_cons.1 hb with rfl | hb
    · exact ha
    · exact ih (fun c hc => h.up_live ha hc) b hb

/-- The way from a node does not lead over a node that it is above of. -/
theorem Links.Ups.not_mem_up (hups : L.Ups (some a) as) (hup : L.up b = some a) : b ∉ as := by
  have hcons : L.Ups (some b) (b :: as) := .cons (hup ▸ hups)
  exact (List.nodup_cons.1 hcons.nodup).1

theorem Links.Sound.up_next (h : L.Sound live) (ha : live a) (hnext : L.next a = some b) :
    L.up b = some a := by
  rw [Links.up, (h.next_iff ha (h.next_live ha hnext)).1 hnext]
  rfl

theorem Links.Sound.up_child (h : L.Sound live) {p c : α} (hp : live p)
    (hchild : L.child p = some c) : L.up c = some p := by
  obtain ⟨hparent, hprev⟩ := (h.child_iff hp (h.child_live hp hchild)).1 hchild
  rw [Links.up, hprev, hparent]
  rfl

/-! ## Taking a node out -/

variable [DecidableEq α]

/-- A node without its neighbours, and these without it. -/
def Links.unlink (L : Links α) (a : α) : Links α where
  parent m := if m = a then none else L.parent m
  child m := if L.prev a = none ∧ L.parent a = some m then L.next a else L.child m
  next m := if m = a then none else if L.prev a = some m then L.next a else L.next m
  prev m := if m = a then none else if L.next a = some m then L.prev a else L.prev m

/-- A node that was taken out has no neighbours. -/
theorem Links.unlink_unlink (L : Links α) (a : α) : (L.unlink a).unlink a = L.unlink a := by
  unfold Links.unlink
  congr 1
  all_goals
    funext m
    by_cases hm : m = a <;> simp [hm]

theorem Links.Sound.unlink (h : L.Sound live) (ha : live a) : (L.unlink a).Sound live := by
  have hn := @h.next_iff
  have hl := @h.next_live
  have hs := @h.sibling
  have hl' := @h.prev_live
  refine ⟨?_, ?_, ?_, ?_, ?_, ?_, ?_, ?_⟩
  · grind [Links.unlink, h.parent_live]
  · grind [Links.unlink, h.child_live]
  · grind [Links.unlink]
  · grind [Links.unlink]
  · intro b c hb hc
    have h1 := hn hb hc
    have h2 := hn ha hc
    have h3 := hn hb ha
    have h4 := hn ha ha
    simp only [Links.unlink]
    grind
  · intro b c hb
    have h1 := @hs b c hb
    have h2 := @hs a c ha
    have h3 := @hs b a hb
    have h4 := hn hb ha
    simp only [Links.unlink]
    grind
  · intro p c hp hc
    have h1 := h.child_iff hp hc
    have h2 := h.child_iff hp ha
    have h3 := h.next_iff ha hc
    have h4 := @h.sibling a c ha
    simp only [Links.unlink]
    grind
  · intro b hb
    obtain ⟨as, has⟩ := h.ups ha
    obtain ⟨as, rfl, hup⟩ := has.tail
    have hup' : (L.unlink a).Ups (L.up a) as := by
      refine hup.congr fun k hk => ?_
      have hka : k ≠ a := fun he => (List.nodup_cons.1 has.nodup).1 (he ▸ hk)
      have hnext : L.next a ≠ some k := fun he =>
        has.not_mem_up (h.up_next ha he) (List.mem_cons_of_mem a hk)
      simp [Links.up, Links.unlink, hka, hnext]
    obtain ⟨bs, hbs⟩ := h.ups hb
    refine hbs.reroute fun m _ => ?_
    by_cases hm : m = a
    · refine .inr ⟨[m], .cons ?_⟩
      have hnone : (L.unlink a).up m = none := by simp [Links.up, Links.unlink, hm]
      rw [hnone]
      exact .nil
    · by_cases hnext : L.next a = some m
      · refine .inr ⟨m :: as, .cons ?_⟩
        have he : (L.unlink a).up m = L.up a := by
          simp [Links.up, Links.unlink, hm, hnext, hs ha hnext]
        rwa [he]
      · refine .inl ?_
        simp [Links.up, Links.unlink, hm, hnext]

/-! ## Putting a node in -/

/-- A node without neighbours. -/
def Links.Detached (L : Links α) (e : α) : Prop :=
  L.parent e = none ∧ L.prev e = none ∧ L.next e = none

/-- The ways up from two nodes do not meet: they are in different trees. -/
def Links.Apart (L : Links α) (a b : α) : Prop :=
  ∀ as bs, L.Ups (some a) as → L.Ups (some b) bs → ∀ c ∈ as, c ∉ bs

omit [DecidableEq α] in
theorem Links.Apart.not_mem (h : L.Apart a b) (hb : ∃ bs, L.Ups (some b) bs)
    (has : L.Ups (some a) as) : b ∉ as := by
  obtain ⟨bs, hbs⟩ := hb
  obtain ⟨_, rfl, -⟩ := hbs.tail
  exact fun hmem => h as _ has hbs b hmem List.mem_cons_self

omit [DecidableEq α] in
theorem Links.Apart.symm (h : L.Apart a b) : L.Apart b a :=
  fun bs as hbs has c hc hca => h as bs has hbs c hca hc

omit [DecidableEq α] in
/-- Nodes apart are different. -/
theorem Links.Apart.ne (h : L.Apart a b) (ha : ∃ as, L.Ups (some a) as) : a ≠ b := by
  rintro rfl
  obtain ⟨as, has⟩ := ha
  exact h.not_mem ⟨as, has⟩ has (has.tail.choose_spec.1 ▸ List.mem_cons_self)

omit [DecidableEq α] in
/-- The nodes above one are in the same tree. -/
theorem Links.Apart.of_above {a' : α} (h : L.Apart a b) (has : L.Ups (some a) as) (hmem : a' ∈ as) :
    L.Apart a' b := by
  intro as' bs has' hbs c hc
  obtain ⟨pre, rest, rfl, hrest⟩ := has.suffix hmem
  rw [hrest.unique has'] at has
  exact h _ bs has hbs c (List.mem_append_right pre hc)

omit [DecidableEq α] in
/-- And so are those below it. -/
theorem Links.Apart.of_below {a' : α} {as' : List α} (h : L.Apart a b)
    (has' : L.Ups (some a') as') (hmem : a ∈ as') : L.Apart a' b := by
  intro as'' bs has'' hbs c hc hcb
  rw [← has'.unique has''] at hc
  obtain ⟨pre, as, rfl, has⟩ := has'.suffix hmem
  rcases List.mem_append.1 hc with hc | hc
  · -- the way from `c` leads over `a` in both cases
    obtain ⟨mid, hmid⟩ := has'.over hc
    obtain ⟨pre2, cs, rfl, hcs⟩ := hbs.suffix hcb
    have hac : a ∈ c :: cs := by
      rw [← hmid.unique hcs]
      exact List.mem_append_right _ List.mem_cons_self
    exact h _ _ has hbs a List.mem_cons_self (List.mem_append_right pre2 hac)
  · exact h _ bs has hbs c hc hcb

omit [DecidableEq α] in
/-- Two roots are apart. -/
theorem Links.apart_of_roots (ha : L.up a = none) (hb : L.up b = none) (hne : a ≠ b) :
    L.Apart a b := by
  intro as bs has hbs c hca hcb
  obtain ⟨as, rfl, has'⟩ := has.tail
  obtain ⟨bs, rfl, hbs'⟩ := hbs.tail
  rw [ha] at has'
  rw [hb] at hbs'
  cases has'
  cases hbs'
  exact hne ((List.mem_singleton.1 hca).symm.trans (List.mem_singleton.1 hcb))

/-- A node behind another one. -/
def Links.insertAfter (L : Links α) (x e : α) : Links α where
  parent m := if m = e then L.parent x else L.parent m
  child := L.child
  next m := if m = e then L.next x else if m = x then some e else L.next m
  prev m := if m = e then some x else if L.next x = some m then some e else L.prev m

theorem Links.Sound.insertAfter (h : L.Sound live) {x e : α} (hx : live x) (he : live e)
    (hd : L.Detached e) (hapart : L.Apart x e) : (L.insertAfter x e).Sound live := by
  obtain ⟨as, has⟩ := h.ups hx
  have hnot := hapart.not_mem (h.ups he) has
  obtain ⟨as, rfl, hup⟩ := has.tail
  have hxe : x ≠ e := fun hxe => hnot (hxe ▸ List.mem_cons_self)
  obtain ⟨hd1, hd2, hd3⟩ := hd
  have hn := @h.next_iff
  have hl := @h.next_live
  have hs := @h.sibling
  have hl' := @h.prev_live
  refine ⟨?_, h.child_live, ?_, ?_, ?_, ?_, ?_, ?_⟩
  · grind [Links.insertAfter, h.parent_live]
  · grind [Links.insertAfter]
  · grind [Links.insertAfter]
  · intro a b ha hb
    have h1 := hn ha hb
    have h2 := hn hx hb
    have h3 := hn ha he
    have h4 := hn he hb
    have h5 := @hn x b hx
    have h6 := hn ha hx
    simp only [Links.insertAfter]
    grind
  · intro b c hb
    have h1 := @hs b c hb
    have h2 := @hs x c hx
    have h3 := hn hb he
    simp only [Links.insertAfter]
    grind
  · intro p c hp hc
    have h1 := h.child_iff hp hc
    have h2 := h.child_iff hp he
    have h3 := h.next_iff hx hc
    simp only [Links.insertAfter]
    grind
  · intro b hb
    have hxs : (L.insertAfter x e).Ups (some x) (x :: as) := by
      refine has.congr fun k hk => ?_
      have hke : k ≠ e := fun he => hnot (he ▸ hk)
      have hnext : L.next x ≠ some k := fun he =>
        has.not_mem_up (h.up_next hx he) hk
      simp [Links.up, Links.insertAfter, hke, hnext]
    have hes : (L.insertAfter x e).Ups (some e) (e :: x :: as) := by
      refine .cons ?_
      have hux : (L.insertAfter x e).up e = some x := by simp [Links.up, Links.insertAfter]
      rwa [hux]
    obtain ⟨bs, hbs⟩ := h.ups hb
    refine hbs.reroute fun m _ => ?_
    by_cases hm : m = e
    · subst hm
      exact .inr ⟨_, hes⟩
    · by_cases hnext : L.next x = some m
      · refine .inr ⟨m :: e :: x :: as, .cons ?_⟩
        have hue : (L.insertAfter x e).up m = some e := by
          simp [Links.up, Links.insertAfter, hm, hnext]
        rwa [hue]
      · refine .inl ?_
        simp [Links.up, Links.insertAfter, hm, hnext]

/-- A node in front of a first one. -/
def Links.insertBefore (L : Links α) (x e : α) : Links α where
  parent m := if m = e then L.parent x else L.parent m
  child m := if L.parent x = some m then some e else L.child m
  next m := if m = e then some x else L.next m
  prev m := if m = x then some e else L.prev m

theorem Links.Sound.insertBefore (h : L.Sound live) {x e : α} (hx : live x) (he : live e)
    (hfirst : L.prev x = none) (hd : L.Detached e) (hapart : L.Apart x e) :
    (L.insertBefore x e).Sound live := by
  obtain ⟨as, has⟩ := h.ups hx
  have hnot := hapart.not_mem (h.ups he) has
  obtain ⟨as, rfl, hup⟩ := has.tail
  have hxe : x ≠ e := fun hxe => hnot (hxe ▸ List.mem_cons_self)
  obtain ⟨hd1, hd2, hd3⟩ := hd
  have hn := @h.next_iff
  have hl := @h.next_live
  have hs := @h.sibling
  have hl' := @h.prev_live
  refine ⟨?_, ?_, ?_, ?_, ?_, ?_, ?_, ?_⟩
  · grind [Links.insertBefore, h.parent_live]
  · grind [Links.insertBefore, h.child_live]
  · grind [Links.insertBefore]
  · grind [Links.insertBefore]
  · intro a b ha hb
    have h1 := hn ha hb
    have h2 := hn ha hx
    have h3 := hn he hb
    have h4 := hn ha he
    simp only [Links.insertBefore]
    grind
  · intro a b ha
    have h1 := @hs a b ha
    simp only [Links.insertBefore]
    grind
  · intro p c hp hc
    have h1 := h.child_iff hp hc
    have h2 := h.child_iff hp he
    have h3 := h.child_iff hp hx
    simp only [Links.insertBefore]
    grind
  · intro b hb
    have hes : (L.insertBefore x e).Ups (some e) (e :: as) := by
      refine .cons ?_
      have hue : (L.insertBefore x e).up e = L.up x := by
        simp [Links.up, Links.insertBefore, hxe.symm, hd2, hfirst]
      rw [hue]
      refine hup.congr fun k hk => ?_
      have hke : k ≠ e := fun he => hnot (he ▸ List.mem_cons_of_mem x hk)
      have hkx : k ≠ x := fun he => (List.nodup_cons.1 has.nodup).1 (he ▸ hk)
      simp [Links.up, Links.insertBefore, hke, hkx]
    obtain ⟨bs, hbs⟩ := h.ups hb
    refine hbs.reroute fun m _ => ?_
    by_cases hm : m = e
    · subst hm
      exact .inr ⟨_, hes⟩
    · by_cases hmx : m = x
      · refine .inr ⟨m :: e :: as, .cons ?_⟩
        have hue : (L.insertBefore x e).up m = some e := by
          simp [Links.up, Links.insertBefore, hmx]
        rwa [hue]
      · refine .inl ?_
        simp [Links.up, Links.insertBefore, hm, hmx]

/-! ## Rows of siblings -/

/-- All siblings of a first one. -/
structure Links.Row (L : Links α) (f : α) (l : List α) : Prop where
  head : f ∈ l
  next_mem : ∀ {a b}, a ∈ l → L.next a = some b → b ∈ l
  prev_mem : ∀ {a b}, a ∈ l → L.prev a = some b → b ∈ l
  first : ∀ {a}, a ∈ l → L.prev a = none → a = f

omit [DecidableEq α] in
theorem Links.Row.congr {l' : List α} (h : L.Row f l) (hl : ∀ a, a ∈ l ↔ a ∈ l') : L.Row f l' :=
  ⟨(hl f).1 h.head, fun ha hab => (hl _).1 (h.next_mem ((hl _).2 ha) hab),
    fun ha hab => (hl _).1 (h.prev_mem ((hl _).2 ha) hab), fun ha => h.first ((hl _).2 ha)⟩

/-- All children of a node. -/
def Links.Children (L : Links α) (p : α) (l : List α) : Prop :=
  match L.child p with
  | none => l = []
  | some c => L.Row c l

omit [DecidableEq α] in
theorem Links.Sound.row_parent (h : L.Sound live) (hrow : L.Row f l) (hlive : ∀ a ∈ l, live a)
    (ha : a ∈ l) : L.parent a = L.parent f := by
  obtain ⟨as, has⟩ := h.ups (hlive a ha)
  induction as generalizing a with
  | nil => cases has
  | cons _ as ih =>
    obtain ⟨as', he, has⟩ := has.tail
    rw [(List.cons.inj he).2] at ih
    cases hprev : L.prev a with
    | none => rw [hrow.first ha hprev]
    | some b =>
      have hb := hrow.prev_mem ha hprev
      have hnext := (h.next_iff (hlive b hb) (hlive a ha)).2 hprev
      rw [h.sibling (hlive b hb) hnext]
      refine ih hb ?_
      rwa [Links.up, hprev] at has

omit [DecidableEq α] in
theorem Links.Sound.children_parent (h : L.Sound live) {p : α} (hp : live p) (hl : L.Children p l)
    (hlive : ∀ a ∈ l, live a) (ha : a ∈ l) : L.parent a = some p := by
  unfold Links.Children at hl
  cases hc : L.child p with
  | none =>
    rw [hc] at hl
    rw [hl] at ha
    cases ha
  | some c =>
    rw [hc] at hl
    rw [h.row_parent hl hlive ha]
    exact ((h.child_iff hp (h.child_live hp hc)).1 hc).1

omit [DecidableEq α] in
theorem Links.Sound.mem_children (h : L.Sound live) {p : α} (hp : live p) (hl : L.Children p l)
    (ha : live a) (hparent : L.parent a = some p) : a ∈ l := by
  obtain ⟨as, has⟩ := h.ups ha
  induction as generalizing a with
  | nil => cases has
  | cons _ as ih =>
    obtain ⟨as', he, has⟩ := has.tail
    rw [(List.cons.inj he).2] at ih
    unfold Links.Children at hl
    cases hprev : L.prev a with
    | none =>
      have hc := (h.child_iff hp ha).2 ⟨hparent, hprev⟩
      rw [hc] at hl
      exact hl.head
    | some b =>
      have hb := h.prev_live ha hprev
      have hnext := (h.next_iff hb ha).2 hprev
      have hmem : b ∈ l := by
        refine ih hb (by rw [← h.sibling hb hnext, hparent]) ?_
        rwa [Links.up, hprev] at has
      cases hc : L.child p with
      | none =>
        rw [hc] at hl
        rw [hl] at hmem
        cases hmem
      | some c =>
        rw [hc] at hl
        exact hl.next_mem hmem hnext

/-- The row `l` of `f` becomes the children of `p`, and `o` are no longer. -/
def Links.adopt (L : Links α) (p f : α) (l o : List α) : Links α where
  parent m := if m ∈ l then some p else if m ∈ o then none else L.parent m
  child m := if m = p then some f else L.child m
  next := L.next
  prev := L.prev

theorem Links.Sound.adopt (h : L.Sound live) {p : α} {o : List α} (hp : live p) (hrow : L.Row f l)
    (hl : ∀ a ∈ l, live a) (hfirst : L.prev f = none) (hroot : L.parent f = none)
    (ho : L.Children p o) (hol : ∀ a ∈ o, live a) (hapart : L.Apart p f) :
    (L.adopt p f l o).Sound live := by
  have hf := hl f hrow.head
  have hlp : ∀ a ∈ l, L.parent a = none := fun a ha => (h.row_parent hrow hl ha).trans hroot
  have hop : ∀ a ∈ o, L.parent a = some p := fun a ha => h.children_parent hp ho hol ha
  have hmem : ∀ c, live c → L.parent c = some p → c ∈ o := fun c hc =>
    h.mem_children hp ho hc
  -- both rows are closed
  have hnext : ∀ a b, live a → L.next a = some b → (a ∈ l ↔ b ∈ l) := fun a b ha hab =>
    ⟨fun ha => hrow.next_mem ha hab,
      fun hb => hrow.prev_mem hb ((h.next_iff ha (h.next_live ha hab)).1 hab)⟩
  have honext : ∀ a b, live a → L.next a = some b → (a ∈ o ↔ b ∈ o) := fun a b ha hab => by
    have hs := h.sibling ha hab
    exact ⟨fun ha => hmem b (h.next_live (hol a ha) hab) (by rw [hs, hop a ha]),
      fun hb => hmem a ha (by rw [← hs, hop b hb])⟩
  refine ⟨?_, ?_, h.next_live, h.prev_live, h.next_iff, ?_, ?_, ?_⟩
  · grind [Links.adopt, h.parent_live]
  · grind [Links.adopt, h.child_live]
  · intro a b ha hab
    have h1 := hnext a b ha hab
    have h2 := honext a b ha hab
    have h3 := h.sibling ha hab
    simp only [Links.adopt]
    grind
  · intro q c hq hc
    have h1 := h.child_iff hq hc
    have h2 := h.child_iff hp hc
    have h3 := hmem c hc
    have h4 := @Links.Row.first _ _ _ _ hrow c
    have h5 := hlp c
    have h6 := hop c
    have h7 := hrow.head
    simp only [Links.adopt]
    grind
  · intro b hb
    -- only the first ones have another node above them now
    have hsame : ∀ k, live k → k ≠ f → L.child p ≠ some k → (L.adopt p f l o).up k = L.up k := by
      intro k hk hkf hkc
      have h2 := h.child_iff hp hk
      have h4 := @Links.Row.first _ _ _ _ hrow k
      have h6 := hop k
      simp only [Links.up, Links.adopt]
      cases hprev : L.prev k with
      | some q => rfl
      | none => grind
    obtain ⟨ps, hps⟩ := h.ups hp
    have hpl := h.ups_live hps fun a ha => Option.some_inj.1 ha ▸ hp
    have hps' : (L.adopt p f l o).Ups (some p) ps := by
      refine hps.congr fun k hk => hsame k (hpl k hk) ?_ ?_
      · exact fun he => hapart.not_mem (h.ups hf) hps (he ▸ hk)
      · exact fun hc => (hps.tail.choose_spec.1 ▸ hps).not_mem_up (h.up_child hp hc)
          (hps.tail.choose_spec.1 ▸ hk)
    obtain ⟨bs, hbs⟩ := h.ups hb
    refine hbs.reroute fun m hm => ?_
    have hml := h.ups_live hbs (fun a ha => Option.some_inj.1 ha ▸ hb) m hm
    by_cases hmf : m = f
    · subst hmf
      refine .inr ⟨m :: ps, .cons ?_⟩
      have hum : (L.adopt p m l o).up m = some p := by
        simp [Links.up, Links.adopt, hfirst, hrow.head]
      rwa [hum]
    · by_cases hmc : L.child p = some m
      · refine .inr ⟨[m], .cons ?_⟩
        have hum : (L.adopt p f l o).up m = none := by
          obtain ⟨h1, h2⟩ := (h.child_iff hp hml).1 hmc
          have hnl : m ∉ l := fun hm => by rw [hlp m hm] at h1; cases h1
          simp [Links.up, Links.adopt, h2, hnl, hmem m hml h1]
        rw [hum]
        exact .nil
      · exact .inl (hsame m hml hmf hmc)

/-! ## Nodes that come into use and go out of it -/

/-- A node without any pointers. -/
def Links.fresh (L : Links α) (a : α) : Links α where
  parent m := if m = a then none else L.parent m
  child m := if m = a then none else L.child m
  next m := if m = a then none else L.next m
  prev m := if m = a then none else L.prev m

theorem Links.Sound.fresh (h : L.Sound live) (ha : ¬ live a) :
    (L.fresh a).Sound fun m => live m ∨ m = a := by
  refine ⟨?_, ?_, ?_, ?_, ?_, ?_, ?_, ?_⟩
  · grind [Links.fresh, h.parent_live]
  · grind [Links.fresh, h.child_live]
  · grind [Links.fresh, h.next_live]
  · grind [Links.fresh, h.prev_live]
  · intro b c hb hc
    have h1 := @h.next_iff b c
    have h2 := @h.next_live b c
    have h3 := @h.prev_live c b
    simp only [Links.fresh]
    grind
  · intro b c hb
    have h1 := @h.sibling b c
    have h2 := @h.next_live b c
    simp only [Links.fresh]
    grind
  · intro p c hp hc
    have h1 := @h.child_iff p c
    have h2 := @h.child_live p c
    have h3 := @h.parent_live c p
    simp only [Links.fresh]
    grind
  · intro b hb
    have hup : ∀ k, live k → (L.fresh a).up k = L.up k := fun k hk => by
      have hne : k ≠ a := fun he => ha (he ▸ hk)
      simp [Links.up, Links.fresh, hne]
    rcases hb with hb | rfl
    · obtain ⟨bs, hbs⟩ := h.ups hb
      refine ⟨bs, hbs.congr fun k hk => hup k ?_⟩
      exact h.ups_live hbs (fun a ha => Option.some_inj.1 ha ▸ hb) k hk
    · refine ⟨[b], .cons ?_⟩
      have hub : (L.fresh b).up b = none := by simp [Links.up, Links.fresh]
      rw [hub]
      exact .nil

/-- The nodes of a list get another parent. -/
def Links.reparent (L : Links α) (l : List α) (p : Option α) : Links α :=
  { L with parent := fun m => if m ∈ l then p else L.parent m }

theorem Links.reparent_nil (L : Links α) (p : Option α) : L.reparent [] p = L := by
  simp [Links.reparent]

theorem Links.reparent_reparent (L : Links α) (l l' : List α) (p : Option α) :
    (L.reparent l p).reparent l' p = L.reparent (l ++ l') p := by
  unfold Links.reparent
  congr 1
  funext m
  by_cases h : m ∈ l <;> by_cases h' : m ∈ l' <;> simp [h, h']

/-- A node without neighbours goes out of use, and its children have no parent any more. -/
theorem Links.Sound.orphan (h : L.Sound live) (ha : live a) (hd : L.Detached a) {o : List α}
    (ho : L.Children a o) (hol : ∀ b ∈ o, live b) :
    (L.reparent o none).Sound fun m => live m ∧ m ≠ a := by
  have hop : ∀ b ∈ o, L.parent b = some a := fun b hb => h.children_parent ha ho hol hb
  have hmem : ∀ c, live c → L.parent c = some a → c ∈ o := fun c hc =>
    h.mem_children ha ho hc
  obtain ⟨hd1, hd2, hd3⟩ := hd
  refine ⟨?_, ?_, ?_, ?_, ?_, ?_, ?_, ?_⟩
  · intro b c hb
    have h1 := @h.parent_live b c hb.1
    have h2 := hmem b hb.1
    simp only [Links.reparent]
    grind
  · intro b c hb hc
    have hcl := h.child_live hb.1 hc
    have h1 := (h.child_iff hb.1 hcl).1 hc
    exact ⟨hcl, fun he => by rw [he, hd1] at h1; cases h1.1⟩
  · intro b c hb hc
    have hcl := h.next_live hb.1 hc
    have h1 := (h.next_iff hb.1 hcl).1 hc
    exact ⟨hcl, fun he => by rw [he, hd2] at h1; cases h1⟩
  · intro b c hb hc
    have hcl := h.prev_live hb.1 hc
    have h1 := (h.next_iff hcl hb.1).2 hc
    exact ⟨hcl, fun he => by rw [he, hd3] at h1; cases h1⟩
  · exact fun hb hc => h.next_iff hb.1 hc.1
  · intro b c hb hbc
    have hs := h.sibling hb.1 hbc
    have h1 := hmem b hb.1
    have h2 := hmem c (h.next_live hb.1 hbc)
    have h3 := hop b
    have h4 := hop c
    simp only [Links.reparent]
    grind
  · intro p c hp hc
    have h1 := h.child_iff hp.1 hc.1
    have h2 := hop c
    have h3 := hp.2
    simp only [Links.reparent]
    grind
  · intro b hb
    obtain ⟨bs, hbs⟩ := h.ups hb.1
    refine hbs.reroute fun m hm => ?_
    by_cases hmo : m ∈ o
    · cases hprev : L.prev m with
      | some q => exact .inl (by simp [Links.up, Links.reparent, hprev])
      | none =>
        refine .inr ⟨[m], .cons ?_⟩
        have hum : (L.reparent o none).up m = none := by simp [Links.up, Links.reparent, hprev, hmo]
        rw [hum]
        exact .nil
    · exact .inl (by simp [Links.up, Links.reparent, hmo])

/-! ## Paths -/

/-- The nodes from one on, as far as `link` goes. -/
inductive Path (link : α → Option α) : Option α → List α → Prop where
  | nil : Path link none []
  | cons {a : α} {as : List α} : Path link (link a) as → Path link (some a) (a :: as)

section Path

omit [DecidableEq α]

variable {link : α → Option α}

theorem Path.head {a : α} {l : List α} (h : Path link (some a) l) :
    ∃ as, l = a :: as ∧ Path link (link a) as := by
  cases h with
  | cons h => exact ⟨_, rfl, h⟩

variable {o : Option α} {l : List α} {a : α}

theorem Path.link_mem (h : Path link o l) {b : α} (ha : a ∈ l) (hab : link a = some b) : b ∈ l := by
  induction h with
  | nil => cases ha
  | cons h ih =>
    rcases List.mem_cons.1 ha with rfl | ha
    · rw [hab] at h
      obtain ⟨as, rfl, -⟩ := h.head
      exact List.mem_cons_of_mem _ List.mem_cons_self
    · exact List.mem_cons_of_mem _ (ih ha)

/-- A path stays where its links stay. -/
theorem Path.subset {m : List α} (h : Path link o l) (ho : ∀ a, o = some a → a ∈ m)
    (hlink : ∀ a ∈ m, ∀ b, link a = some b → b ∈ m) : ∀ a ∈ l, a ∈ m := by
  induction h with
  | nil => exact fun a ha => absurd ha List.not_mem_nil
  | cons h ih =>
    rename_i a as
    have ha := ho a rfl
    intro b hb
    rcases List.mem_cons.1 hb with rfl | hb
    · exact ha
    · exact ih (hlink a ha) b hb

theorem Path.of_mem (h : Path link o l) (ha : a ∈ l) : o = some a ∨ ∃ b ∈ l, link b = some a := by
  induction h with
  | nil => cases ha
  | cons h ih =>
    rename_i c as
    rcases List.mem_cons.1 ha with rfl | ha
    · exact .inl rfl
    · rcases ih ha with hc | ⟨b, hb, he⟩
      · exact .inr ⟨c, List.mem_cons_self, hc⟩
      · exact .inr ⟨b, List.mem_cons_of_mem _ hb, he⟩

theorem Path.end_eq (h : Path link o l) (ha : a ∈ l) (hend : link a = none) :
    l.getLast? = some a := by
  induction h with
  | nil => cases ha
  | cons h ih =>
    rename_i c as
    rcases List.mem_cons.1 ha with rfl | ha
    · rw [hend] at h
      cases h
      rfl
    · rw [List.getLast?_cons, ih ha]
      rfl

theorem Path.last (h : Path link o l) (ha : l.getLast? = some a) : link a = none ∧ a ∈ l := by
  induction h with
  | nil => cases ha
  | cons h ih =>
    rename_i c as
    cases has : as.getLast? with
    | none =>
      rw [List.getLast?_eq_none_iff] at has
      subst has
      obtain rfl : c = a := by simpa using ha
      cases hl : link c with
      | none => exact ⟨rfl, List.mem_cons_self⟩
      | some b =>
        rw [hl] at h
        obtain ⟨_, he, -⟩ := h.head
        cases he
    | some b =>
      rw [List.getLast?_cons, has] at ha
      obtain rfl : b = a := by simpa using ha
      exact ⟨(ih has).1, List.mem_cons_of_mem _ (ih has).2⟩

/-- Later siblings are below a node, on the way up. -/
theorem Links.Sound.ups_of_next (h : L.Sound live) {b : α} {bs : List α} (hb : live b)
    (hbs : L.Ups (some b) bs) (ha : a ∈ bs) (hl : Path L.next (some b) l) :
    ∀ n ∈ l, ∃ as, L.Ups (some n) as ∧ a ∈ as := by
  induction l generalizing b bs with
  | nil => cases hl
  | cons c l ih =>
    obtain ⟨l', he, hl⟩ := hl.head
    rw [(List.cons.inj he).1]
    rw [(List.cons.inj he).2] at ih ⊢
    intro n hn
    rcases List.mem_cons.1 hn with rfl | hn
    · exact ⟨bs, hbs, ha⟩
    · cases hnext : L.next b with
      | none =>
        rw [hnext] at hl
        cases hl
        cases hn
      | some c =>
        rw [hnext] at hl
        exact ih (h.next_live hb hnext) (.cons (h.up_next hb hnext ▸ hbs))
          (List.mem_cons_of_mem c ha) hl n hn

/-- The nodes before and behind one are its row. -/
theorem Links.Sound.row (h : L.Sound live) {f : α} {ps ns : List α}
    (hps : Path L.prev (some a) ps) (hns : Path L.next (some a) ns) (hf : ps.getLast? = some f)
    (hlive : ∀ b ∈ ps ++ ns, live b) : L.Row f (ps ++ ns) := by
  have hpl : ∀ b ∈ ps, live b := fun b hb => hlive b (List.mem_append_left _ hb)
  have hnl : ∀ b ∈ ns, live b := fun b hb => hlive b (List.mem_append_right _ hb)
  obtain ⟨ps', hps', -⟩ := hps.head
  obtain ⟨ns', hns', -⟩ := hns.head
  have hap : a ∈ ps := hps' ▸ List.mem_cons_self
  have han : a ∈ ns := hns' ▸ List.mem_cons_self
  refine ⟨List.mem_append_left _ (hps.last hf).2, ?_, ?_, ?_⟩
  · intro b c hb hbc
    rcases List.mem_append.1 hb with hb | hb
    · rcases hps.of_mem hb with he | ⟨d, hd, he⟩
      · cases he
        exact List.mem_append_right _ (hns.link_mem han hbc)
      · have hdb := (h.next_iff (hpl b hb) (hpl d hd)).2 he
        cases hbc.symm.trans hdb
        exact List.mem_append_left _ hd
    · exact List.mem_append_right _ (hns.link_mem hb hbc)
  · intro b c hb hbc
    rcases List.mem_append.1 hb with hb | hb
    · exact List.mem_append_left _ (hps.link_mem hb hbc)
    · rcases hns.of_mem hb with he | ⟨d, hd, he⟩
      · cases he
        exact List.mem_append_left _ (hps.link_mem hap hbc)
      · have hdb := (h.next_iff (hnl d hd) (hnl b hb)).1 he
        cases hbc.symm.trans hdb
        exact List.mem_append_right _ hd
  · intro b hb hbc
    have hbps : b ∈ ps := by
      rcases List.mem_append.1 hb with hb | hb
      · exact hb
      · rcases hns.of_mem hb with he | ⟨d, hd, he⟩
        · cases he
          exact hap
        · rw [(h.next_iff (hnl d hd) (hnl b hb)).1 he] at hbc
          cases hbc
    exact Option.some_inj.1 ((hps.end_eq hbps hbc).symm.trans hf)

/-- The nodes before one are on its way up. -/
theorem Links.Ups.path_prev {as : List α} (h : L.Ups (some a) as) :
    ∃ l, Path L.prev (some a) l ∧ l <+: as := by
  induction as generalizing a with
  | nil => cases h
  | cons _ as ih =>
    obtain ⟨as', he, h⟩ := h.tail
    rw [he]
    rw [(List.cons.inj he).2] at ih
    cases hprev : L.prev a with
    | none => exact ⟨[a], .cons (hprev ▸ .nil), by simp⟩
    | some b =>
      rw [Links.up, hprev] at h
      obtain ⟨l, hl, hpre⟩ := ih h
      exact ⟨a :: l, .cons (hprev ▸ hl), (List.prefix_cons_inj a).2 hpre⟩

/-! ## Forests -/

theorem Links.Linked.path_next : ∀ {f : Forest α} {parent prev : Option α},
    L.Linked parent prev f → Path L.next f.head? f.tops
  | .nil, _, _, _ => .nil
  | .cons _ _ _, _, _, h => .cons (h.1.2.2.2 ▸ h.2.2.path_next)

theorem Forest.tops_sublist : ∀ f : Forest α, f.tops.Sublist f.nodes
  | .nil => List.Sublist.slnil
  | .cons _ _ beside => by
    rw [Forest.tops, Forest.nodes]
    exact (beside.tops_sublist.trans (List.sublist_append_right _ _)).cons_cons _

/-- What hangs below and beside a live node, if there are finitely many. -/
theorem Links.Sound.forest (h : L.Sound live) {bound : List α} (hbound : ∀ a, live a → a ∈ bound) :
    ∀ (k : Nat) {a : α} {as : List α}, live a → L.Ups (some a) as → bound.length ≤ as.length + k →
      ∃ below beside, L.Linked (L.parent a) (L.prev a) (.cons a below beside) := by
  have hle : ∀ {o : Option α} {as : List α}, L.Ups o as → (∀ a, o = some a → live a) →
      as.length ≤ bound.length := fun has ho =>
    (has.nodup.subperm fun b hb => hbound b (h.ups_live has ho b hb)).length_le
  intro k
  induction k with
  | zero =>
    intro a as ha has hlen
    -- the way is as long as it can be
    have hno : ∀ b, live b → L.up b ≠ some a := fun b hb hup => by
      have := hle (.cons (hup ▸ has) : L.Ups (some b) (b :: as)) fun c hc =>
        Option.some_inj.1 hc ▸ hb
      rw [List.length_cons] at this
      omega
    have hchild : L.child a = none := Option.eq_none_iff_forall_ne_some.2 fun c hc =>
      hno c (h.child_live ha hc) (h.up_child ha hc)
    have hnext : L.next a = none := Option.eq_none_iff_forall_ne_some.2 fun b hb =>
      hno b (h.next_live ha hb) (h.up_next ha hb)
    exact ⟨.nil, .nil, ⟨rfl, rfl, hchild, hnext⟩, trivial, trivial⟩
  | succ k ih =>
    intro a as ha has hlen
    have hbelow : ∃ below, L.child a = below.head? ∧ L.Linked (some a) none below := by
      cases hc : L.child a with
      | none => exact ⟨.nil, rfl, trivial⟩
      | some c =>
        have hcl := h.child_live ha hc
        obtain ⟨hparent, hprev⟩ := (h.child_iff ha hcl).1 hc
        obtain ⟨ds, cs, hl⟩ := ih hcl (.cons (h.up_child ha hc ▸ has)) (by
          rw [List.length_cons]
          omega)
        exact ⟨.cons c ds cs, rfl, hparent ▸ hprev ▸ hl⟩
    have hbeside : ∃ beside, L.next a = beside.head? ∧ L.Linked (L.parent a) (some a) beside := by
      cases hb : L.next a with
      | none => exact ⟨.nil, rfl, trivial⟩
      | some b =>
        have hbl := h.next_live ha hb
        obtain ⟨ds, bs, hl⟩ := ih hbl (.cons (h.up_next ha hb ▸ has)) (by
          rw [List.length_cons]
          omega)
        exact ⟨.cons b ds bs, rfl, h.sibling ha hb ▸ (h.next_iff ha hbl).1 hb ▸ hl⟩
    obtain ⟨below, hc, hl1⟩ := hbelow
    obtain ⟨beside, hn, hl2⟩ := hbeside
    exact ⟨below, beside, ⟨rfl, rfl, hc, hn⟩, hl1, hl2⟩

theorem Links.Linked.mem_live (h : L.Sound live) : ∀ {f : Forest α} {parent prev : Option α},
    L.Linked parent prev f → (∀ a, f.head? = some a → live a) → ∀ b ∈ f.nodes, live b
  | .nil, _, _, _, _ => fun b hb => absurd hb List.not_mem_nil
  | .cons a below beside, _, _, hl, hhead => by
    have ha := hhead a rfl
    intro b hb
    rw [Forest.nodes, List.mem_cons, List.mem_append] at hb
    rcases hb with rfl | hb | hb
    · exact ha
    · exact Links.Linked.mem_live h hl.2.1 (fun c hc => h.child_live ha (hl.1.2.2.1.trans hc)) b hb
    · exact Links.Linked.mem_live h hl.2.2 (fun c hc => h.next_live ha (hl.1.2.2.2.trans hc)) b hb

/-- Nodes stay linked where the links stay, behind another node before the first one. -/
theorem Links.Linked.relink : ∀ {f : Forest α} {parent prev prev' : Option α},
    L.Linked parent prev f →
    (∀ m ∈ f.nodes, L'.parent m = L.parent m ∧ L'.child m = L.child m ∧ L'.next m = L.next m) →
    (∀ m ∈ f.nodes, f.head? ≠ some m → L'.prev m = L.prev m) →
    (∀ b, f.head? = some b → L'.prev b = prev') → f.nodes.Nodup →
    L'.Linked parent prev' f
  | .nil, _, _, _, _, _, _, _, _ => trivial
  | .cons a below beside, _, _, _, h, hsame, hprev, hhead, hnd => by
    rw [Forest.nodes, List.nodup_cons, List.nodup_append, List.mem_append, not_or] at hnd
    obtain ⟨⟨hab, has⟩, hbd, hsd, -⟩ := hnd
    obtain ⟨hp, hc, hn⟩ := hsame a List.mem_cons_self
    have hin : ∀ m, m ∈ below.nodes ∨ m ∈ beside.nodes → m ∈ (Forest.cons a below beside).nodes :=
      fun m hm => List.mem_cons_of_mem a (List.mem_append.2 hm)
    have hne : ∀ m, m ∈ below.nodes ∨ m ∈ beside.nodes →
        (Forest.cons a below beside).head? ≠ some m := by
      rintro m hm he
      cases he
      exact hm.elim hab has
    have hkeep : ∀ m, m ∈ below.nodes ∨ m ∈ beside.nodes → L'.prev m = L.prev m := fun m hm =>
      hprev m (hin m hm) (hne m hm)
    have hfirst : ∀ {g : Forest α} {q r : Option α} {b : α}, L.Linked q r g → g.head? = some b →
        L.prev b = r ∧ b ∈ g.nodes := by
      intro g q r b hg hb
      cases g with
      | nil => cases hb
      | cons c ds cs =>
        cases hb
        exact ⟨hg.1.2.1, List.mem_cons_self⟩
    refine ⟨⟨hp.trans h.1.1, hhead a rfl, hc.trans h.1.2.2.1, hn.trans h.1.2.2.2⟩, ?_, ?_⟩
    · refine h.2.1.relink (fun m hm => hsame m (hin m (.inl hm)))
        (fun m hm _ => hkeep m (.inl hm)) (fun b hb => ?_) hbd
      obtain ⟨hb1, hb2⟩ := hfirst h.2.1 hb
      rw [hkeep b (.inl hb2), hb1]
    · refine h.2.2.relink (fun m hm => hsame m (hin m (.inr hm)))
        (fun m hm _ => hkeep m (.inr hm)) (fun b hb => ?_) hsd
      obtain ⟨hb1, hb2⟩ := hfirst h.2.2 hb
      rw [hkeep b (.inr hb2), hb1]

/-- Where nothing changes, nodes stay linked. -/
theorem Links.Linked.congr : ∀ {f : Forest α} {parent prev : Option α}, L.Linked parent prev f →
    (∀ m ∈ f.nodes, L'.parent m = L.parent m ∧ L'.prev m = L.prev m ∧ L'.child m = L.child m ∧
      L'.next m = L.next m) → L'.Linked parent prev f
  | .nil, _, _, _, _ => trivial
  | .cons a below beside, _, _, h, hsame => by
    obtain ⟨hp, hq, hc, hn⟩ := hsame a List.mem_cons_self
    refine ⟨⟨hp.trans h.1.1, hq.trans h.1.2.1, hc.trans h.1.2.2.1, hn.trans h.1.2.2.2⟩, ?_, ?_⟩
    · exact h.2.1.congr fun m hm => hsame m (List.mem_cons_of_mem a (List.mem_append_left _ hm))
    · exact h.2.2.congr fun m hm => hsame m (List.mem_cons_of_mem a (List.mem_append_right _ hm))

/-- A forest does not contain the node above it. -/
theorem Links.Linked.up_not_mem {f : Forest α} {parent prev : Option α} {as : List α} {x : α}
    (h : L.Linked parent prev f) (hups : L.Ups (prev.or parent) as)
    (hx : prev.or parent = some x) : x ∉ f.nodes := by
  intro hmem
  cases f with
  | nil => cases hmem
  | cons a below beside =>
    obtain ⟨bs, hbs⟩ := h.ups hups rfl hmem
    rw [hx] at hups
    have hlen := congrArg List.length (hups.unique hbs)
    simp only [List.length_cons, List.length_append] at hlen
    omega

end Path

/-- Without the first tree, the others stand behind what was before it. -/
theorem Links.Linked.unlink {parent prev : Option α} {below beside : Forest α}
    (h : L.Linked parent prev (.cons a below beside)) (hups : L.Ups (prev.or parent) as) :
    (L.unlink a).Linked parent prev beside ∧ (L.unlink a).Linked (some a) none below ∧
      (L.unlink a).child a = L.child a := by
  have hnd := h.nodup hups
  rw [Forest.nodes, List.nodup_cons, List.nodup_append, List.mem_append, not_or] at hnd
  obtain ⟨⟨hab, has⟩, -, hsd, hdisj⟩ := hnd
  have hbeside := h.2.2
  obtain ⟨hparent, hprev, hchild, hnext⟩ := h.1
  have hout : ∀ m, m ∈ beside.nodes → prev.or parent ≠ some m := fun m hm he =>
    h.up_not_mem hups he (List.mem_cons_of_mem a (List.mem_append_right _ hm))
  have hpa : parent ≠ some a ∨ prev ≠ none := by
    by_cases hp : prev = none
    · refine .inl fun he => h.up_not_mem (x := a) hups ?_ List.mem_cons_self
      rw [hp, he]
      rfl
    · exact .inr hp
  refine ⟨hbeside.relink (fun m hm => ?_) (fun m hm hne => ?_) (fun b hb => ?_) hsd,
    h.2.1.congr fun m hm => ?_, ?_⟩
  · have hma : m ≠ a := fun he => has (he ▸ hm)
    have hup := hout m hm
    refine ⟨by simp [Links.unlink, hma], ?_, ?_⟩
    · simp only [Links.unlink, hprev, hparent]
      refine if_neg fun hc => hup ?_
      rw [hc.1, hc.2]
      rfl
    · simp only [Links.unlink, hprev, hma, if_false]
      refine if_neg fun hc => hup ?_
      rw [hc]
      rfl
  · have hma : m ≠ a := fun he => has (he ▸ hm)
    simp only [Links.unlink, hma, if_false, hnext]
    exact if_neg hne
  · have hba : b ≠ a := by
      rintro rfl
      cases beside with
      | nil => cases hb
      | cons c ds cs =>
        cases hb
        exact has List.mem_cons_self
    simp only [Links.unlink, hba, if_false, hnext, hprev]
    exact if_pos hb
  · have hma : m ≠ a := fun he => hab (he ▸ hm)
    have hup : prev.or parent ≠ some m := fun he =>
      h.up_not_mem hups he (List.mem_cons_of_mem a (List.mem_append_left _ hm))
    have hnm : beside.head? ≠ some m := by
      intro he
      cases beside with
      | nil => cases he
      | cons c ds cs =>
        cases he
        exact hdisj m hm m List.mem_cons_self rfl
    have hpm : prev ≠ some m := fun he => hup (by rw [he]; rfl)
    have hcm : ¬(prev = none ∧ parent = some m) := fun hc => hup (by rw [hc.1, hc.2]; rfl)
    simp [Links.unlink, hma, hprev, hparent, hnext, hnm, hpm, hcm]
  · simp only [Links.unlink, hprev, hparent]
    refine if_neg fun hc => ?_
    rcases hpa with hpa | hpa
    · exact hpa hc.2
    · exact hpa hc.1

/-! ## Pruning -/

variable (p : α → Bool)

/-- Whether a node of a tree has the property. -/
def Forest.holdsIn (a : α) (below : Forest α) : Bool := p a || below.nodes.any p

/-- Without the first trees that have no such node. -/
def Forest.keep : Forest α → Forest α
  | .nil => .nil
  | .cons a below beside =>
    if Forest.holdsIn p a below then .cons a below beside.keep else beside.keep

/-- Without the subtrees that have no such node. -/
def Forest.pruned : Forest α → Forest α
  | .nil => .nil
  | .cons a below beside =>
    if Forest.holdsIn p a below then .cons a below.pruned beside.pruned else beside.pruned

end Lib
