/-!
# Forests and linked nodes

A forest is a list of trees, kept as a first tree and the rest.  `Linked` says
that the nodes of a forest are linked by `parent`, `child`, `next` and `prev`
maps, as a tree of heap cells is.  `Chain` follows one of those maps to its end.

`Forest.expand` lists the leaves in order, and the leaves below a node as often as
`times` says.  `Forest.leaves` lists each leaf once, with its depth.

Following `prev` and, at a first sibling, `parent` leads from any node to the root.
So the links determine where a node is, and a linked forest has no node twice
(`Links.Linked.nodup`).

`Forest.Ends` is what is left of some siblings from one of them on, and `Forest.Level` the
siblings at a depth.
-/

namespace Lib

universe u

variable {α : Type u}

/-! ## Forests -/

/-- A first tree, by its label and the trees below it, and the trees beside it. -/
inductive Forest (α : Type u) where
  | nil
  | cons (label : α) (children rest : Forest α)

/-- The label of the first tree. -/
def Forest.head? : Forest α → Option α
  | .nil => none
  | .cons a _ _ => some a

/-- The label of the last tree, or `a` if there is none. -/
def Forest.lastOr : α → Forest α → α
  | a, .nil => a
  | _, .cons b _ rest => rest.lastOr b

/-- The leaves in order, those below a node `a` repeated `times a` times. -/
@[grind =] def Forest.expand (times : α → Nat) : Forest α → List α
  | .nil => []
  | .cons a .nil rest => a :: rest.expand times
  | .cons a (.cons b below beside) rest =>
    (List.replicate (times a) ((Forest.cons b below beside).expand times)).flatten
      ++ rest.expand times

/-- The leaves in order, with their depths. -/
@[grind =] def Forest.leaves : Forest α → List (α × Nat)
  | .nil => []
  | .cons a .nil beside => (a, 0) :: beside.leaves
  | .cons _ (.cons b ds cs) beside =>
    (Forest.cons b ds cs).leaves.map (fun l => (l.1, l.2 + 1)) ++ beside.leaves

/-- All labels. -/
@[grind =] def Forest.nodes : Forest α → List α
  | .nil => []
  | .cons a below beside => a :: (below.nodes ++ beside.nodes)

/-- The last tree alone. -/
@[grind =] def Forest.lastTree : Forest α → Forest α
  | .nil => .nil
  | .cons a below .nil => .cons a below .nil
  | .cons _ _ (.cons b ds bs) => (Forest.cons b ds bs).lastTree

theorem Forest.leaves_sublist : ∀ f : Forest α, (f.leaves.map Prod.fst).Sublist f.nodes
  | .nil => List.Sublist.slnil
  | .cons a .nil beside => by
    simp only [Forest.leaves, Forest.nodes, List.map_cons, List.nil_append]
    exact (Forest.leaves_sublist beside).cons_cons a
  | .cons a (.cons b ds cs) beside => by
    have hbelow := Forest.leaves_sublist (.cons b ds cs)
    have hbeside := Forest.leaves_sublist beside
    rw [Forest.leaves, Forest.nodes, List.map_append, List.map_map]
    exact (hbelow.append hbeside).cons a

/-- Played once each, the leaves are those of `Forest.leaves`. -/
theorem Forest.expand_once {times : α → Nat} : ∀ f : Forest α, (∀ a ∈ f.nodes, times a = 1) →
    f.expand times = f.leaves.map Prod.fst
  | .nil, _ => rfl
  | .cons a .nil beside, h => by
    rw [Forest.expand, Forest.leaves, List.map_cons,
      Forest.expand_once beside fun x hx => h x (by simp [Forest.nodes, hx])]
  | .cons a (.cons b ds cs) beside, h => by
    rw [Forest.expand, Forest.leaves, List.map_append, List.map_map,
      Forest.expand_once beside fun x hx => h x (by simp [Forest.nodes, hx]),
      Forest.expand_once (.cons b ds cs) fun x hx => h x (by
        rw [Forest.nodes, List.mem_cons, List.mem_append]
        exact Or.inr (Or.inl hx)),
      h a (by simp [Forest.nodes])]
    simp only [List.replicate_one, List.flatten_cons, List.flatten_nil, List.append_nil]
    rfl

/-- A tree has a leaf. -/
theorem Forest.leaves_pos : ∀ {f : Forest α} {a : α}, f.head? = some a → 0 < f.leaves.length
  | .cons _ .nil _, _, _ => by simp [Forest.leaves]
  | .cons _ (.cons b ds cs) _, _, _ => by
    have hpos := Forest.leaves_pos (f := .cons b ds cs) rfl
    rw [Forest.leaves, List.length_append, List.length_map]
    omega

/-- The leaves of the last tree come last. -/
theorem Forest.leaves_lastTree : ∀ f : Forest α, ∃ front, f.leaves = front ++ f.lastTree.leaves
  | .nil => ⟨[], rfl⟩
  | .cons a below .nil => ⟨[], rfl⟩
  | .cons a .nil (.cons b ds bs) => by
    obtain ⟨front, hfront⟩ := Forest.leaves_lastTree (.cons b ds bs)
    exact ⟨(a, 0) :: front, by rw [Forest.leaves, hfront, Forest.lastTree, List.cons_append]⟩
  | .cons a (.cons c es cs) (.cons b ds bs) => by
    obtain ⟨front, hfront⟩ := Forest.leaves_lastTree (.cons b ds bs)
    exact ⟨_, by rw [Forest.leaves, hfront, Forest.lastTree, ← List.append_assoc]⟩

theorem Forest.lastTree_head : ∀ (a : α) (below beside : Forest α),
    ∃ ds, (Forest.cons a below beside).lastTree = .cons (beside.lastOr a) ds .nil
  | _, below, .nil => ⟨below, rfl⟩
  | _, _, .cons b ds bs => Forest.lastTree_head b ds bs

/-! ## Linked nodes -/

/-- The pointers of linked nodes. -/
structure Links (α : Type u) where
  parent : α → Option α
  child : α → Option α
  next : α → Option α
  prev : α → Option α

/-- The trees hang below `parent` and behind `prev`. -/
def Links.Linked (L : Links α) : Option α → Option α → Forest α → Prop
  | _, _, .nil => True
  | parent, prev, .cons a below beside =>
    (L.parent a = parent ∧ L.prev a = prev ∧ L.child a = below.head? ∧ L.next a = beside.head?) ∧
    L.Linked (some a) none below ∧ L.Linked parent (some a) beside

/-- Following `link` from the first node ends at the second. -/
inductive Chain (link : α → Option α) : α → α → Prop where
  | stop {a : α} : link a = none → Chain link a a
  | step {a b c : α} : link a = some b → Chain link b c → Chain link a c

variable {L : Links α}

/-- The pointers tell the forest. -/
theorem Links.Linked.unique : ∀ {f f' : Forest α} {parent prev parent' prev' : Option α},
    L.Linked parent prev f → L.Linked parent' prev' f' → f.head? = f'.head? → f = f'
  | .nil, .nil, _, _, _, _, _, _, _ => rfl
  | .nil, .cons _ _ _, _, _, _, _, _, _, hhead => by cases hhead
  | .cons _ _ _, .nil, _, _, _, _, _, _, hhead => by cases hhead
  | .cons a below beside, .cons b below' beside', _, _, _, _, h, h', hhead => by
    cases hhead
    have hbelow := Links.Linked.unique h.2.1 h'.2.1 (h.1.2.2.1.symm.trans h'.1.2.2.1)
    have hbeside := Links.Linked.unique h.2.2 h'.2.2 (h.1.2.2.2.symm.trans h'.1.2.2.2)
    rw [hbelow, hbeside]

/-- The last sibling has the parent of the others and no next one. -/
theorem Links.Linked.last : ∀ {parent prev : Option α} {a : α} {below beside : Forest α},
    L.Linked parent prev (.cons a below beside) →
      L.parent (beside.lastOr a) = parent ∧ L.next (beside.lastOr a) = none
  | _, _, _, _, .nil, h => ⟨h.1.1, h.1.2.2.2⟩
  | _, _, _, _, .cons _ _ _, h => by
    have hlast := Links.Linked.last h.2.2
    exact hlast

/-- The chain of `next` from the first of some siblings ends at the last. -/
theorem Links.Linked.chain_next : ∀ {parent prev : Option α} {a : α} {below beside : Forest α},
    L.Linked parent prev (.cons a below beside) → Chain L.next a (beside.lastOr a)
  | _, _, _, _, .nil, h => .stop h.1.2.2.2
  | _, _, _, _, .cons _ _ _, h => .step h.1.2.2.2 (Links.Linked.chain_next h.2.2)

/-- A chain of `prev` from some sibling can start at the last one behind it. -/
theorem Links.Linked.chain_prev_of : ∀ {parent : Option α} {a z : α} {beside : Forest α},
    L.Linked parent (some a) beside → Chain L.prev a z → Chain L.prev (beside.lastOr a) z
  | _, _, _, .nil, _, hz => hz
  | _, _, _, .cons _ _ _, h, hz => by
    have hlast := Links.Linked.chain_prev_of h.2.2 (.step h.1.2.1 hz)
    exact hlast

variable {parent prev : Option α} {a : α} {below beside f g : Forest α}

/-- The chain of `prev` from the last of some siblings ends at the first. -/
theorem Links.Linked.chain_prev (h : L.Linked parent none (.cons a below beside)) :
    Chain L.prev (beside.lastOr a) a :=
  h.2.2.chain_prev_of (.stop h.1.2.1)

/-- The last tree of linked siblings is linked too. -/
theorem Links.Linked.lastTree : ∀ {parent prev : Option α} {f : Forest α},
    L.Linked parent prev f → ∃ prev', L.Linked parent prev' f.lastTree
  | _, _, .nil, h => ⟨none, h⟩
  | _, prev, .cons _ _ .nil, h => ⟨prev, h⟩
  | _, _, .cons _ _ (.cons _ _ _), h => h.2.2.lastTree

/-! ## The way to the root -/

/-- The node before, or above a first sibling. -/
def Links.up (L : Links α) (a : α) : Option α := (L.prev a).or (L.parent a)

/-- The nodes on the way to the root. -/
inductive Links.Ups (L : Links α) : Option α → List α → Prop where
  | nil : L.Ups none []
  | cons {a : α} {as : List α} : L.Ups (L.up a) as → L.Ups (some a) (a :: as)

theorem Links.Ups.unique {a : Option α} {as : List α} (h : L.Ups a as) :
    ∀ {bs : List α}, L.Ups a bs → as = bs := by
  induction h with
  | nil =>
    intro bs h'
    cases h'
    rfl
  | cons _ ih =>
    intro bs h'
    cases h' with
    | cons h' => rw [ih h']

/-- The way from a node of a forest leads through the first tree. -/
theorem Links.Linked.ups : ∀ {f : Forest α} {parent prev : Option α} {as : List α} {a x : α},
    L.Linked parent prev f → L.Ups (prev.or parent) as → f.head? = some a → x ∈ f.nodes →
      ∃ bs, L.Ups (some x) (bs ++ a :: as)
  | .nil, _, _, _, _, _, _, _, hhead, _ => by cases hhead
  | .cons p below beside, parent, prev, as, a, x, h, has, hhead, hx => by
    cases hhead
    have hup : L.Ups (some p) (p :: as) := by
      refine .cons ?_
      rw [Links.up, h.1.2.1, h.1.1]
      exact has
    rw [Forest.nodes, List.mem_cons, List.mem_append] at hx
    rcases hx with rfl | hx | hx
    · exact ⟨[], hup⟩
    · cases below with
      | nil => cases hx
      | cons c ds cs =>
        obtain ⟨bs, hbs⟩ := Links.Linked.ups h.2.1 hup rfl hx
        exact ⟨bs ++ [c], by rw [List.append_assoc]; exact hbs⟩
    · cases beside with
      | nil => cases hx
      | cons b ds bs' =>
        obtain ⟨bs, hbs⟩ := Links.Linked.ups h.2.2 hup rfl hx
        exact ⟨bs ++ [b], by rw [List.append_assoc]; exact hbs⟩

/-- A linked forest has no node twice. -/
theorem Links.Linked.nodup : ∀ {f : Forest α} {parent prev : Option α} {as : List α},
    L.Linked parent prev f → L.Ups (prev.or parent) as → f.nodes.Nodup
  | .nil, _, _, _, _, _ => List.nodup_nil
  | .cons p below beside, parent, prev, as, h, has => by
    have hup : L.Ups (some p) (p :: as) := by
      refine .cons ?_
      rw [Links.up, h.1.2.1, h.1.1]
      exact has
    have hnot : ∀ {f : Forest α} {prev : Option α} {q : Option α}, L.Linked q prev f →
        prev.or q = some p → p ∉ f.nodes := by
      intro f prev q hf hq hp
      cases f with
      | nil => cases hp
      | cons c ds cs =>
        obtain ⟨bs, hbs⟩ := hf.ups (hq ▸ hup) rfl hp
        have hlen := congrArg List.length (hup.unique hbs)
        simp only [List.length_cons, List.length_append] at hlen
        omega
    rw [Forest.nodes, List.nodup_cons, List.nodup_append, List.mem_append, not_or]
    refine ⟨⟨hnot h.2.1 rfl, hnot h.2.2 rfl⟩, Links.Linked.nodup h.2.1 hup,
      Links.Linked.nodup h.2.2 hup, ?_⟩
    rintro x hx y hy rfl
    cases below with
    | nil => cases hx
    | cons c ds cs =>
      cases beside with
      | nil => cases hy
      | cons b es bs =>
        obtain ⟨as1, h1⟩ := Links.Linked.ups h.2.1 hup rfl hx
        obtain ⟨as2, h2⟩ := Links.Linked.ups h.2.2 hup rfl hy
        have hends := List.append_inj_right' (h1.unique h2) rfl
        have hcb : c = b := (List.cons.inj hends).1
        have hc : L.prev c = none := h.2.1.1.2.1
        have hb : L.prev b = some p := h.2.2.1.2.1
        rw [hcb, hb] at hc
        cases hc

/-! ## Levels -/

/-- The labels of the trees. -/
@[grind =] def Forest.tops : Forest α → List α
  | .nil => []
  | .cons a _ beside => a :: beside.tops

/-- The second forest is what is left of the first one from one of its trees on. -/
inductive Forest.Ends : Forest α → Forest α → Prop where
  | refl (f : Forest α) : f.Ends f
  | beside {a : α} {below beside g : Forest α} : beside.Ends g → (cons a below beside).Ends g

/-- The siblings at a depth of a forest, and the node they are below. -/
inductive Forest.Level (f : Forest α) : Option α → Forest α → Nat → Prop where
  | top : f.Level none f 0
  | down {parent : Option α} {g below beside : Forest α} {n : Nat} {a : α} :
      f.Level parent g n → g.Ends (.cons a below beside) → f.Level (some a) below (n + 1)

theorem Forest.Ends.tail {f below beside : Forest α} {a : α} (h : f.Ends (.cons a below beside)) :
    f.Ends beside := by
  generalize hg : Forest.cons a below beside = g at h
  induction h with
  | refl =>
    rw [← hg]
    exact .beside (.refl beside)
  | beside _ ih => exact .beside (ih hg)

theorem Forest.Ends.trans {h : Forest α} (hfg : f.Ends g) (hgh : g.Ends h) : f.Ends h := by
  induction hfg with
  | refl => exact hgh
  | beside _ ih => exact .beside (ih hgh)

/-- A tree ends the forest from some place on. -/
theorem Forest.ends_of_tops : ∀ {f : Forest α} {a : α}, a ∈ f.tops →
    ∃ below beside, f.Ends (.cons a below beside)
  | .nil, _, h => by cases h
  | .cons b below beside, a, h => by
    rw [Forest.tops, List.mem_cons] at h
    obtain rfl | h := h
    case inl => exact ⟨below, beside, .refl _⟩
    case inr =>
      obtain ⟨below', beside', h⟩ := Forest.ends_of_tops h
      exact ⟨below', beside', .beside h⟩

theorem Forest.Ends.tops (h : f.Ends (.cons a below beside)) : a ∈ f.tops := by
  generalize hg : Forest.cons a below beside = g at h
  induction h with
  | refl =>
    rw [← hg]
    exact List.mem_cons_self
  | beside _ ih => exact List.mem_cons_of_mem _ (ih hg)

theorem Forest.tops_subset : ∀ {f : Forest α} {a : α}, a ∈ f.tops → a ∈ f.nodes
  | .nil, _, h => h
  | .cons b below beside, a, h => by
    rw [Forest.tops, List.mem_cons] at h
    rw [Forest.nodes, List.mem_cons, List.mem_append]
    exact h.imp id fun h => .inr (Forest.tops_subset h)

theorem Forest.Ends.nodes (h : f.Ends g) : ∀ {a : α}, a ∈ g.nodes →
    a ∈ f.nodes := by
  induction h with
  | refl => exact id
  | beside _ ih =>
    intro a ha
    rw [Forest.nodes, List.mem_cons, List.mem_append]
    exact .inr (.inr (ih ha))

theorem Forest.Level.nodes {n : Nat} (h : f.Level parent g n) :
    ∀ {a : α}, a ∈ g.nodes → a ∈ f.nodes := by
  induction h with
  | top => exact id
  | down _ hends ih =>
    intro a ha
    refine ih (hends.nodes ?_)
    rw [Forest.nodes, List.mem_cons, List.mem_append]
    exact .inr (.inl ha)

theorem Forest.Ends.nodes_le (h : f.Ends g) : g.nodes.length ≤ f.nodes.length := by
  induction h with
  | refl => exact Nat.le_refl _
  | beside _ ih =>
    rw [Forest.nodes, List.length_cons, List.length_append]
    omega

/-- There are less nodes below a tree than at its level. -/
theorem Forest.Ends.below_lt (h : f.Ends (.cons a below beside)) :
    below.nodes.length < f.nodes.length := by
  have hle := h.nodes_le
  rw [Forest.nodes, List.length_cons, List.length_append] at hle
  omega

theorem Links.Linked.ends (h : L.Linked parent prev f) (hends : f.Ends g) :
    ∃ prev', L.Linked parent prev' g := by
  induction hends generalizing prev with
  | refl => exact ⟨prev, h⟩
  | beside _ ih => exact ih h.2.2

theorem Links.Linked.level {n : Nat} (h : L.Linked none none f) (hlevel : f.Level parent g n) :
    L.Linked parent none g := by
  induction hlevel with
  | top => exact h
  | down _ hends ih =>
    obtain ⟨_, hg⟩ := ih.ends hends
    exact hg.2.1

/-- The one before a sibling is a sibling, unless it is the first. -/
theorem Links.Linked.prev_ends (h : L.Linked parent prev f)
    (hends : f.Ends (.cons a below beside)) :
    (f = .cons a below beside ∧ L.prev a = prev) ∨
      ∃ b below', L.prev a = some b ∧ f.Ends (.cons b below' (.cons a below beside)) := by
  generalize hg : Forest.cons a below beside = g at hends
  induction hends generalizing prev with
  | refl =>
    rw [← hg] at h ⊢
    exact .inl ⟨rfl, h.1.2.1⟩
  | @beside b below' f g _ ih =>
    obtain ⟨rfl, hprev⟩ | ⟨c, below'', hprev, hc⟩ := ih h.2.2 hg
    case inl => exact .inr ⟨b, below', hprev, .refl _⟩
    case inr => exact .inr ⟨c, below'', hprev, .beside hc⟩

/-- The chain of `prev` from any sibling ends at the first. -/
theorem Links.Linked.chain_prev_ends {z : α} (h : L.Linked parent prev f)
    (hz : ∀ b, f.head? = some b → Chain L.prev b z) (hends : f.Ends (.cons a below beside)) :
    Chain L.prev a z := by
  generalize hg : Forest.cons a below beside = g at hends
  induction hends generalizing prev with
  | refl =>
    rw [← hg] at hz
    exact hz a rfl
  | @beside b below' f g _ ih =>
    refine ih h.2.2 (fun c hc => ?_) hg
    cases f with
    | nil => cases hc
    | cons c' ds cs =>
      cases hc
      exact .step h.2.2.1.2.1 (hz b rfl)

end Lib
