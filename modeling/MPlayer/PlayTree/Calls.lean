import MPlayer.PlayTree.Step

/-!
# Calls of the playlist iterator

One call of `play_tree_iter_step`, on a finite tree of any kind: with nodes that aren't valid,
levels in random order and loops without an end.  The call either returns or ends in another
call (`Outcome`), and `Call` lists the ways it can go.

The searches of a call come to an end on a finite tree, whatever the flags and the loop counts
in its cells are, which are all that changes while the iterator moves (`SameTree`).
-/

namespace MPlayer

open Lib

/-! ## Cells that change -/

/-- The cells of a heap with other flags and loop counts. -/
def SameTree (heap heap' : Nat → PlayTree) : Prop :=
  ∀ p, heap' p = { heap p with rndPlayed := (heap' p).rndPlayed, loop := (heap' p).loop }

namespace SameTree

variable {heap heap' heap'' : Nat → PlayTree}

theorem refl (heap : Nat → PlayTree) : SameTree heap heap := fun _ => rfl

theorem parent (h : SameTree heap heap') (p : Nat) : (heap' p).parent = (heap p).parent := by
  rw [h p]

theorem child (h : SameTree heap heap') (p : Nat) : (heap' p).child = (heap p).child := by
  rw [h p]

theorem next (h : SameTree heap heap') (p : Nat) : (heap' p).next = (heap p).next := by
  rw [h p]

theorem prev (h : SameTree heap heap') (p : Nat) : (heap' p).prev = (heap p).prev := by
  rw [h p]

theorem rnd (h : SameTree heap heap') (p : Nat) : (heap' p).rnd = (heap p).rnd := by
  rw [h p]

theorem entryType (h : SameTree heap heap') (p : Nat) :
    (heap' p).entryType = (heap p).entryType := by
  rw [h p]

theorem links (h : SameTree heap heap') : playTreeLinks heap' = playTreeLinks heap := by
  simp only [playTreeLinks, h.parent, h.child, h.next, h.prev]

theorem update (h : SameTree heap heap') (p : Nat) (played : Bool) (loop : Int) :
    SameTree heap (Function.update heap' p { heap' p with rndPlayed := played, loop := loop }) := by
  intro q
  by_cases hq : q = p
  case pos =>
    subst hq
    rw [Function.update_self, h q]
  case neg => rw [Function.update_of_ne hq, ← h q]

theorem trans (h : SameTree heap heap') (h' : SameTree heap' heap'') : SameTree heap heap'' := by
  intro p
  rw [h' p, h p]

theorem anyValid (h : SameTree heap heap') : ∀ (fuel : Nat) (p : Option Nat),
    playTreeAnyValid heap' fuel p = playTreeAnyValid heap fuel p
  | 0, _ => rfl
  | _ + 1, none => rfl
  | fuel + 1, some p => by
    rw [playTreeAnyValid, playTreeAnyValid, h.entryType, h.child, h.next,
      SameTree.anyValid h fuel, SameTree.anyValid h fuel]

theorem isValid (h : SameTree heap heap') (fuel p : Nat) :
    playTreeIsValid heap' fuel p = playTreeIsValid heap fuel p := by
  rw [playTreeIsValid, playTreeIsValid, h.entryType, h.child, h.anyValid]

theorem childValid (h : SameTree heap heap') (fuel p : Nat) :
    playTreeChildValid heap' fuel p = playTreeChildValid heap fuel p := by
  rw [playTreeChildValid, playTreeChildValid, h.child]
  cases (heap p).child with
  | none => rfl
  | some c => exact h.isValid fuel c

end SameTree

/-! ## Searches that end -/

variable {heap : Nat → PlayTree}

theorem playTreeFarthest_settles {link : Nat → Option Nat} {p q : Nat} (h : Chain link p q) :
    Settles (fun n => playTreeFarthest link n p) fun _ => some q := by
  induction h with
  | stop hp =>
    refine .succ rfl ?_
    simp only [playTreeFarthest, hp]
    exact .refl _
  | step hp _ ih =>
    refine .succ rfl ?_
    simp only [playTreeFarthest, hp]
    exact ih

theorem playTreeSiblings_settles : ∀ {f : Forest Nat} {parent prev : Option Nat},
    (playTreeLinks heap).Linked parent prev f →
      Settles (fun n => playTreeSiblings heap n f.head?) fun _ => some f.tops
  | .nil, _, _, _ => .succ rfl (.refl _)
  | .cons p below beside, _, _, h => by
    refine .succ rfl ?_
    have hnext : (heap p).next = beside.head? := h.1.2.2.2
    simp only [Forest.head?, playTreeSiblings, hnext]
    exact (playTreeSiblings_settles h.2.2).map _

theorem playTreeAnyValid_settles : ∀ {f : Forest Nat} {parent prev : Option Nat},
    (playTreeLinks heap).Linked parent prev f →
      ∃ b, Settles (fun n => playTreeAnyValid heap n f.head?) fun _ => some b
  | .nil, _, _, _ => ⟨false, .succ rfl (.refl _)⟩
  | .cons p below beside, _, _, h => by
    have hnext : (heap p).next = beside.head? := h.1.2.2.2
    have hchild : (heap p).child = below.head? := h.1.2.2.1
    obtain ⟨b, hbelow⟩ := playTreeAnyValid_settles h.2.1
    obtain ⟨b', hbeside⟩ := playTreeAnyValid_settles h.2.2
    by_cases hnode : (heap p).entryType ≠ .node
    case pos =>
      refine ⟨true, .succ rfl ?_⟩
      simp only [Forest.head?, playTreeAnyValid, if_pos hnode, Option.bind_some, if_true]
      exact .refl _
    case neg =>
      refine ⟨b || b', .succ rfl ?_⟩
      simp only [Forest.head?, playTreeAnyValid, hnext, hchild, if_neg hnode]
      refine Settles.bind hbelow ?_
      cases b with
      | true => exact .refl _
      | false => exact hbeside

variable {below beside : Forest Nat} {d : Int}

theorem playTreeIsValid_settles {parent prev : Option Nat} {p : Nat}
    (h : (playTreeLinks heap).Linked parent prev (.cons p below beside)) :
    ∃ b, Settles (fun n => playTreeIsValid heap n p) fun _ => some b := by
  have hchild : (heap p).child = below.head? := h.1.2.2.1
  simp only [playTreeIsValid, hchild]
  by_cases hnode : (heap p).entryType ≠ .node
  case pos =>
    simp only [if_pos hnode]
    exact ⟨true, .refl _⟩
  case neg =>
    simp only [if_neg hnode]
    exact playTreeAnyValid_settles h.2.1

theorem playTreeChildValid_settles {parent prev : Option Nat} {p : Nat}
    (h : (playTreeLinks heap).Linked parent prev (.cons p below beside)) :
    ∃ b, Settles (fun n => playTreeChildValid heap n p) fun _ => some b := by
  have hchild : (heap p).child = below.head? := h.1.2.2.1
  simp only [playTreeChildValid, hchild]
  cases below with
  | nil => exact ⟨false, .refl _⟩
  | cons c ds cs => exact playTreeIsValid_settles h.2.1

/-- The sibling that a draw gives, out of those not played yet. -/
def drawnOf (heap : Nat → PlayTree) (rand : Nat → Nat) (siblings : List Nat) : Option Nat :=
  let free := siblings.filter fun p => !(heap p).rndPlayed
  if free.length = 0 then none else free[rand free.length]?

theorem drawnOf_mem {rand : Nat → Nat} {siblings : List Nat} {p : Nat}
    (h : drawnOf heap rand siblings = some p) : p ∈ siblings := by
  unfold drawnOf at h
  dsimp only at h
  split at h
  case isTrue => cases h
  case isFalse => exact (List.mem_filter.mp (List.mem_of_getElem? h)).1

/-- A draw among siblings of which none is played. -/
theorem drawnOf_unplayed {rand : Nat → Nat} {siblings : List Nat}
    (h : ∀ p ∈ siblings, (heap p).rndPlayed = false)
    (hrand : rand siblings.length < siblings.length) :
    ∃ p, drawnOf heap rand siblings = some p := by
  have hfree : siblings.filter (fun p => !(heap p).rndPlayed) = siblings :=
    List.filter_eq_self.mpr fun p hp => by rw [h p hp]; rfl
  refine ⟨siblings[rand siblings.length], ?_⟩
  rw [drawnOf, hfree, if_neg (by omega), List.getElem?_eq_getElem hrand]

theorem playTreeRndStep_settles {parent : Option Nat} {f : Forest Nat} {p : Nat}
    (h : (playTreeLinks heap).Linked parent none f) (hends : f.Ends (.cons p below beside))
    (rand : Nat → Nat) :
    Settles (fun n => playTreeRndStep heap rand n p) fun _ => some (drawnOf heap rand f.tops) := by
  cases f with
  | nil => exact absurd hends.tops List.not_mem_nil
  | cons z ds zs =>
    have hz : Chain (playTreeLinks heap).prev p z := by
      refine h.chain_prev_ends (fun b hb => ?_) hends
      cases hb
      exact .stop h.1.2.1
    refine Settles.bind (playTreeFarthest_settles hz) ?_
    refine Settles.bind (playTreeSiblings_settles h) ?_
    simp only [drawnOf]
    split
    case isTrue => exact .refl _
    case isFalse => exact .refl _

/-- A heap whose cells at `ps` aren't played. -/
def unplayed (heap : Nat → PlayTree) (ps : List Nat) (p : Nat) : PlayTree :=
  if p ∈ ps then { heap p with rndPlayed := false } else heap p

theorem unplayed_same (heap : Nat → PlayTree) (ps : List Nat) :
    SameTree heap (unplayed heap ps) := by
  intro p
  rw [unplayed]
  split <;> rfl

theorem unplayed_append (ps qs : List Nat) :
    unplayed (unplayed heap ps) qs = unplayed heap (ps ++ qs) := by
  funext p
  by_cases hp : p ∈ ps
  case pos => simp [unplayed, hp]
  case neg => simp [unplayed, hp]

theorem playTreeUnsetPlayed_settles : ∀ {f : Forest Nat} {heap : Nat → PlayTree}
    {parent prev : Option Nat}, (playTreeLinks heap).Linked parent prev f →
      Settles (fun n => playTreeUnsetPlayed n heap f.head?) fun _ => some (unplayed heap f.nodes)
  | .nil, heap, _, _, _ => by
    refine .succ rfl ?_
    have hnil : unplayed heap Forest.nil.nodes = heap := by
      funext p
      exact if_neg List.not_mem_nil
    rw [hnil]
    exact .refl _
  | .cons p below beside, heap, _, _, h => by
    refine .succ rfl ?_
    have hfirst : Function.update heap p { heap p with rndPlayed := false } =
        unplayed heap [p] := by
      funext q
      by_cases hq : q = p
      case pos =>
        subst hq
        simp [unplayed]
      case neg => simp [unplayed, hq]
    have hsame := unplayed_same heap [p]
    have hsame' := unplayed_same (unplayed heap [p]) below.nodes
    have hchild : (unplayed heap [p] p).child = below.head? := by
      rw [hsame.child]
      exact h.1.2.2.1
    have hnext : (unplayed (unplayed heap [p]) below.nodes p).next = beside.head? := by
      rw [hsame'.next, hsame.next]
      exact h.1.2.2.2
    have hall : unplayed heap (Forest.cons p below beside).nodes =
        unplayed (unplayed (unplayed heap [p]) below.nodes) beside.nodes := by
      rw [unplayed_append, unplayed_append]
      rfl
    simp only [Forest.head?, playTreeUnsetPlayed, hfirst, hchild, hall]
    refine Settles.bind (playTreeUnsetPlayed_settles (hsame.links ▸ h.2.1)) ?_
    simp only [hnext]
    exact playTreeUnsetPlayed_settles (hsame'.links ▸ hsame.links ▸ h.2.2)

/-! ## Siblings -/

variable {parent prev : Option Nat} {g : Forest Nat} {p q : Nat}

theorem tops_next (h : (playTreeLinks heap).Linked parent prev g) (hp : p ∈ g.tops)
    (hnext : (heap p).next = some q) : q ∈ g.tops := by
  obtain ⟨below, beside, hends⟩ := Forest.ends_of_tops hp
  obtain ⟨_, hlinked⟩ := h.ends hends
  have hhead : (heap p).next = beside.head? := hlinked.1.2.2.2
  cases beside with
  | nil => cases hhead.symm.trans hnext
  | cons b ds bs =>
    cases hhead.symm.trans hnext
    exact hends.tail.tops

theorem tops_prev (h : (playTreeLinks heap).Linked parent none g) (hp : p ∈ g.tops)
    (hprev : (heap p).prev = some q) : q ∈ g.tops := by
  obtain ⟨below, beside, hends⟩ := Forest.ends_of_tops hp
  obtain ⟨-, hnone⟩ | ⟨b, below', hb, hends'⟩ := h.prev_ends hends
  case inl => cases hnone.symm.trans hprev
  case inr =>
    cases hb.symm.trans hprev
    exact hends'.tops

theorem tops_parent (h : (playTreeLinks heap).Linked parent prev g) (hp : p ∈ g.tops) :
    (heap p).parent = parent := by
  obtain ⟨below, beside, hends⟩ := Forest.ends_of_tops hp
  obtain ⟨_, hlinked⟩ := h.ends hends
  exact hlinked.1.1

/-- The first of some siblings. -/
theorem tops_first (h : (playTreeLinks heap).Linked parent none g) (hp : p ∈ g.tops) :
    ∃ z ∈ g.tops, Chain (playTreeLinks heap).prev p z := by
  obtain ⟨below, beside, hends⟩ := Forest.ends_of_tops hp
  cases g with
  | nil => cases hp
  | cons z ds zs =>
    refine ⟨z, List.mem_cons_self, h.chain_prev_ends (fun b hb => ?_) hends⟩
    cases hb
    exact .stop h.1.2.1

theorem lastOr_tops : ∀ (g : Forest Nat) (p : Nat), g.lastOr p ∈ p :: g.tops
  | .nil, _ => List.mem_cons_self
  | .cons q _ beside, p => List.mem_cons_of_mem p (lastOr_tops beside q)

/-- The last of some siblings. -/
theorem tops_last (h : (playTreeLinks heap).Linked parent prev g) (hp : p ∈ g.tops) :
    ∃ z ∈ g.tops, Chain (playTreeLinks heap).next p z := by
  obtain ⟨below, beside, hends⟩ := Forest.ends_of_tops hp
  obtain ⟨_, hlinked⟩ := h.ends hends
  refine ⟨beside.lastOr p, ?_, hlinked.chain_next⟩
  have hmem := lastOr_tops beside p
  rw [List.mem_cons] at hmem
  obtain heq | hmem := hmem
  case inl => rwa [heq]
  case inr =>
    obtain ⟨_, _, hends'⟩ := Forest.ends_of_tops hmem
    exact (hends.tail.trans hends').tops

theorem playTreeWalk_closed {link : Nat → Option Nat} {P : Nat → Prop}
    (hlink : ∀ p q, P p → link p = some q → P q) : ∀ {n p q : Nat}, P p →
      (playTreeWalk link n (some p)).1 = some q → P q
  | 0, _, _, hp, h => by
    cases h
    exact hp
  | n + 1, p, q, hp, h => by
    rw [playTreeWalk] at h
    cases hl : link p with
    | none =>
      rw [hl] at h
      cases n <;> cases h
    | some r =>
      rw [hl] at h
      exact playTreeWalk_closed hlink (hlink p r hp hl) h

/-- A step aims at a sibling. -/
theorem playTreeIterAim_tops (h : (playTreeLinks heap).Linked parent none g) (hp : p ∈ g.tops)
    (haim : (playTreeIterAim heap p d).1 = some q) : q ∈ g.tops := by
  unfold playTreeIterAim at haim
  split at haim
  case isTrue => exact playTreeWalk_closed (fun _ _ hp hq => tops_next h hp hq) hp haim
  case isFalse =>
    split at haim
    case isTrue => exact playTreeWalk_closed (fun _ _ hp hq => tops_prev h hp hq) hp haim
    case isFalse =>
      cases haim
      exact hp

theorem playTreeIterAim_rest (heap : Nat → PlayTree) (p : Nat) (d : Int) :
    (playTreeIterAim heap p d).2 = 0 ↔ d = 0 := by
  unfold playTreeIterAim
  split
  case isTrue =>
    dsimp only
    split <;> omega
  case isFalse =>
    split
    case isTrue =>
      dsimp only
      split <;> omega
    case isFalse => omega

theorem SameTree.aim {heap' : Nat → PlayTree} (h : SameTree heap heap') (p : Nat) (d : Int) :
    playTreeIterAim heap' p d = playTreeIterAim heap p d := by
  simp only [playTreeIterAim, h.next, h.prev]

/-! ## What a call does -/

/-- `play_tree_is_valid` gives 1. -/
def PlayTreeValid (heap : Nat → PlayTree) (p : Nat) : Prop :=
  Returns (fun fuel => playTreeIsValid heap fuel p) true

/-- `p->child && play_tree_is_valid(p->child)` gives 1. -/
def ChildValid (heap : Nat → PlayTree) (p : Nat) : Prop :=
  Returns (fun fuel => playTreeChildValid heap fuel p) true

/-- The siblings at `p` are played in random order. -/
def playTreeRandom (heap : Nat → PlayTree) (p : Nat) : Bool :=
  (heap p).parent.any fun parent => (heap parent).rnd

/-- The siblings at `p` are played again, where a step finds no further one. -/
def LoopsBack (heap : Nat → PlayTree) (loop : Int) (p : Nat) (d : Int) : Prop :=
  ∃ parent, (heap p).parent = some parent ∧ (heap parent).loop ≠ 0 ∧
    ((0 < d ∧ loop ≠ 0) ∨ (d < 0 ∧ (loop < 0 ∨ loop < (heap parent).loop)))

/-- A call returns, or ends in another call. -/
inductive CallOutcome where
  | done (ret : IterRet) (iter : PlayTreeIter)
  | again (iter : PlayTreeIter) (d : Int)

/-- What a call gives, if `step` is the call that it ends in. -/
def CallOutcome.run (step : PlayTreeIter → Int → Option (IterRet × PlayTreeIter)) :
    CallOutcome → Option (IterRet × PlayTreeIter)
  | .done ret iter => some (ret, iter)
  | .again iter d => step iter d

/-- The iterator is on the siblings `g` below `parent`, in the tree `f`. -/
structure OnLevel (heap : Nat → PlayTree) (root : Nat) (f : Forest Nat) (iter : PlayTreeIter)
    (parent : Option Nat) (g : Forest Nat) : Prop where
  same : SameTree heap iter.heap
  root_eq : iter.root = some root
  level : f.Level parent g iter.statusStack.length

/-- The iterator stands on one of the siblings `g` below `parent`. -/
structure PlacedIn (heap : Nat → PlayTree) (root : Nat) (f : Forest Nat) (iter : PlayTreeIter)
    (p : Nat) (parent : Option Nat) (g : Forest Nat) : Prop
    extends OnLevel heap root f iter parent g where
  tree_eq : iter.tree = some p
  mem : p ∈ g.tops

/-- The iterator has moved nowhere, and has made some draws. -/
structure Keeps (iter iter' : PlayTreeIter) (draws : Nat) : Prop where
  heap_eq : iter'.heap = iter.heap
  root_eq : iter'.root = iter.root
  tree_eq : iter'.tree = iter.tree
  stack_eq : iter'.statusStack = iter.statusStack
  loop_eq : iter'.loop = iter.loop
  draws_eq : iter'.draws = iter.draws + draws

/-- What becomes of a step that has found `q`, with the children `below`. -/
inductive Visited (heap : Nat → PlayTree) (root : Nat) (f : Forest Nat) (iter : PlayTreeIter)
    (q : Nat) (below : Forest Nat) (d : Int) (withNodes : Bool) : CallOutcome → Prop where
  | node : ChildValid heap q → withNodes = true →
      Visited heap root f iter q below d withNodes (.done .node { iter with tree := some q })
  | down {iter' : PlayTreeIter} {c : Nat} : ChildValid heap q →
      PlacedIn heap root f iter' c (some q) below → iter'.heap = iter.heap →
      Visited heap root f iter q below d withNodes (.again iter' 0)
  | error : ¬PlayTreeValid heap q → d = 0 →
      Visited heap root f iter q below d withNodes (.done .error iter)
  | missed : ¬PlayTreeValid heap q → d ≠ 0 →
      Visited heap root f iter q below d withNodes (.again iter d)
  | entry {iter' : PlayTreeIter} : PlayTreeValid heap q → ¬ChildValid heap q →
      SameTree heap iter'.heap → iter'.root = iter.root → iter'.tree = some q →
      iter'.statusStack = iter.statusStack →
      Visited heap root f iter q below d withNodes (.done .entry iter')

/-- The ways that a call can go, from `p` among the siblings `g`. -/
inductive Called (rand : Nat → Nat → Nat) (heap : Nat → PlayTree) (root : Nat) (f : Forest Nat)
    (iter : PlayTreeIter) (p : Nat) (parent : Option Nat) (g : Forest Nat) (d : Int)
    (withNodes : Bool) : CallOutcome → Prop where
  | found {iter' : PlayTreeIter} {q : Nat} {below beside : Forest Nat} {d' : Int}
      {o : CallOutcome} : playTreeRandom heap p = false → playTreeIterAim heap p d = (some q, d') →
      g.Ends (.cons q below beside) → Keeps iter iter' 0 →
      Visited heap root f iter' q below d' withNodes o →
      Called rand heap root f iter p parent g d withNodes o
  | loop {iter' : PlayTreeIter} {c : Nat} {d' : Int} : playTreeRandom heap p = false →
      playTreeIterAim heap p d = (none, d') → LoopsBack iter.heap iter.loop p d' →
      PlacedIn heap root f iter' c parent g → iter'.heap = iter.heap →
      Called rand heap root f iter p parent g d withNodes (.again iter' 0)
  | finish {iter' : PlayTreeIter} {d' : Int} : playTreeRandom heap p = false →
      playTreeIterAim heap p d = (none, d') → ¬LoopsBack iter.heap iter.loop p d' →
      parent = none → PlacedIn heap root f iter' p parent g →
      Called rand heap root f iter p parent g d withNodes (.done .finish iter')
  | up {iter' : PlayTreeIter} {d' : Int} {q : Nat} {parent' : Option Nat} {g' : Forest Nat} :
      playTreeRandom heap p = false → playTreeIterAim heap p d = (none, d') →
      ¬LoopsBack iter.heap iter.loop p d' → parent = some q →
      PlacedIn heap root f iter' q parent' g' → iter'.heap = iter.heap →
      iter'.draws = iter.draws → iter.statusStack = iter'.loop :: iter'.statusStack →
      Called rand heap root f iter p parent g d withNodes (.again iter' d')
  | drawn {iter' : PlayTreeIter} {q : Nat} {below beside : Forest Nat} {o : CallOutcome} :
      playTreeRandom heap p = true → drawnOf iter.heap (rand iter.draws) g.tops = some q →
      g.Ends (.cons q below beside) → Keeps iter iter' 1 →
      Visited heap root f iter' q below d withNodes o →
      Called rand heap root f iter p parent g d withNodes o
  | drawnOut {iter' : PlayTreeIter} : playTreeRandom heap p = true →
      drawnOf iter.heap (rand iter.draws) g.tops = none → PlacedIn heap root f iter' p parent g →
      Called rand heap root f iter p parent g d withNodes (.done .finish iter')
  | afresh {iter' : PlayTreeIter} : playTreeRandom heap p = true →
      drawnOf iter.heap (rand iter.draws) g.tops = none → PlacedIn heap root f iter' p parent g →
      (∀ q ∈ g.tops, (iter'.heap q).rndPlayed = false) → iter'.draws = iter.draws + 1 →
      Called rand heap root f iter p parent g d withNodes (.again iter' 0)

variable {rand : Nat → Nat → Nat} {root : Nat} {f : Forest Nat} {iter : PlayTreeIter}

theorem PlayTreeValid.settles {b : Bool}
    (h : Settles (fun n => playTreeIsValid heap n p) fun _ => some b) :
    b = true ↔ PlayTreeValid heap p :=
  ⟨fun hb => by
    subst hb
    exact h.returns, fun hv => h.eq_of_returns hv⟩

theorem ChildValid.settles {b : Bool}
    (h : Settles (fun n => playTreeChildValid heap n p) fun _ => some b) :
    b = true ↔ ChildValid heap p :=
  ⟨fun hb => by
    subst hb
    exact h.returns, fun hv => h.eq_of_returns hv⟩

/-- The iterator goes down into `q`. -/
theorem OnLevel.down {c : Nat} (h : OnLevel heap root f iter parent g)
    (hl : (playTreeLinks heap).Linked none none f) (hends : g.Ends (.cons q below beside))
    (hc : below.head? = some c) (d : Int) :
    ∃ iter' c', PlacedIn heap root f iter' c' (some q) below ∧ iter'.heap = iter.heap ∧
      ∀ step : Nat → PlayTreeIter → Int → Option (IterRet × PlayTreeIter),
        Settles (fun n => playTreeIterDownStep (step n) n { iter with tree := some q } q c d)
          fun n => step n iter' 0 := by
  obtain ⟨_, hq⟩ := (hl.level h.level).ends hends
  have hmem : c ∈ below.tops := by
    cases below with
    | nil => cases hc
    | cons b ds bs =>
      cases hc
      exact List.mem_cons_self
  have henter : ∃ c' ∈ below.tops,
      Settles (fun n => playTreeIterEnter iter.heap n c d) fun _ => some c' := by
    by_cases hd : 0 ≤ d
    case pos =>
      simp only [playTreeIterEnter, if_pos hd]
      exact ⟨c, hmem, .refl _⟩
    case neg =>
      obtain ⟨z, hz, hchain⟩ := tops_last hq.2.1 hmem
      simp only [playTreeIterEnter, if_neg hd, h.same.next]
      exact ⟨z, hz, playTreeFarthest_settles hchain⟩
  obtain ⟨c', hc', henter⟩ := henter
  obtain ⟨iter1, heq, hheap, hroot, hstack, hloop⟩ : ∃ iter1 : PlayTreeIter,
      (if iter.config then playTreeIterPushParams { iter with tree := some q, file := -1 } q
        else { iter with tree := some q, file := -1 }) = iter1 ∧ iter1.heap = iter.heap ∧
      iter1.root = iter.root ∧ iter1.statusStack = iter.statusStack ∧ iter1.loop = iter.loop := by
    refine ⟨_, rfl, ?_⟩
    split
    case isTrue =>
      rw [playTreeIterPushParams_eq]
      exact ⟨rfl, rfl, rfl, rfl⟩
    case isFalse => exact ⟨rfl, rfl, rfl, rfl⟩
  refine ⟨{ iter1 with
      statusStack := iter1.loop :: iter1.statusStack
      loop := (iter1.heap q).loop - 1
      tree := some c' }, c', ⟨⟨?_, ?_, ?_⟩, rfl, hc'⟩, hheap, fun step => ?_⟩
  · rw [hheap]
    exact h.same
  · exact hroot.trans h.root_eq
  · rw [List.length_cons, hstack]
    exact .down h.level hends
  · simp only [playTreeIterDownStep, heq, hheap]
    exact henter.bind (.refl _)

/-- The iterator at an entry. -/
theorem PlayTreeIter.entered (iter : PlayTreeIter) (q : Nat) (hsame : SameTree heap iter.heap) :
    ∃ iter' : PlayTreeIter,
      (let iter := { iter with tree := some q, numFiles := (iter.heap q).files.length }
      if iter.config then
        let iter := { playTreeIterPushParams iter q with entryPushed := true }
        if iter.mode = .rnd then
          { iter with heap := Function.update iter.heap q { iter.heap q with rndPlayed := true } }
        else iter
      else iter) = iter' ∧
      SameTree heap iter'.heap ∧ iter'.root = iter.root ∧ iter'.tree = some q ∧
      iter'.statusStack = iter.statusStack := by
  refine ⟨_, rfl, ?_⟩
  dsimp only
  split
  case isTrue =>
    rw [playTreeIterPushParams_eq]
    dsimp only
    split
    case isTrue => exact ⟨hsame.update q true (iter.heap q).loop, rfl, rfl, rfl⟩
    case isFalse => exact ⟨hsame, rfl, rfl, rfl⟩
  case isFalse => exact ⟨hsame, rfl, rfl, rfl⟩

/-- A step that has found an item. -/
theorem OnLevel.visited (h : OnLevel heap root f iter parent g)
    (hl : (playTreeLinks heap).Linked none none f) (hends : g.Ends (.cons q below beside))
    (d : Int) (withNodes : Bool) :
    ∃ o, Visited heap root f iter q below d withNodes o ∧
      ∀ step : Nat → PlayTreeIter → Int → Option (IterRet × PlayTreeIter),
        Settles (fun n => playTreeIterVisit (step n) n iter q d withNodes)
          fun n => o.run (step n) := by
  obtain ⟨_, hq⟩ := (hl.level h.level).ends hends
  obtain ⟨childValid, hchildValid⟩ := playTreeChildValid_settles hq
  obtain ⟨valid, hvalid⟩ := playTreeIsValid_settles hq
  have hchild : (heap q).child = below.head? := hq.1.2.2.1
  have hcv := ChildValid.settles hchildValid
  have hv := PlayTreeValid.settles hvalid
  simp only [playTreeIterVisit, h.same.childValid, h.same.isValid, h.same.child, hchild]
  cases childValid with
  | true =>
    cases hc : below.head? with
    | none =>
      simp only [playTreeChildValid, hchild, hc] at hchildValid
      cases hchildValid.eq_of_returns (Returns.of_forall 0 fun _ _ => rfl)
    | some c =>
      cases withNodes with
      | true => exact ⟨_, .node (hcv.mp rfl) rfl, fun _ => hchildValid.bind (.refl _)⟩
      | false =>
        obtain ⟨iter', c', hplaced, hheap, hsettles⟩ := h.down hl hends hc d
        exact ⟨_, .down (hcv.mp rfl) hplaced hheap, fun step => hchildValid.bind (hsettles step)⟩
  | false =>
    have hnot : ¬ChildValid heap q := fun h => Bool.false_ne_true (hcv.mpr h)
    cases valid with
    | false =>
      have hinvalid : ¬PlayTreeValid heap q := fun h => Bool.false_ne_true (hv.mpr h)
      by_cases hd : d = 0
      case pos =>
        refine ⟨_, .error hinvalid hd, fun _ => hchildValid.bind ?_⟩
        simp only [hd]
        cases below.head? <;> exact hvalid.bind (.refl _)
      case neg =>
        refine ⟨_, .missed hinvalid hd, fun _ => hchildValid.bind ?_⟩
        simp only [if_neg hd]
        cases below.head? <;> exact hvalid.bind (.refl _)
    | true =>
      obtain ⟨iter', heq, hsame, hroot, htree, hstack⟩ :=
        iter.entered q h.same
      refine ⟨_, .entry (hv.mp rfl) hnot hsame hroot htree hstack, fun _ => hchildValid.bind ?_⟩
      simp only [heq]
      cases below.head? <;> exact hvalid.bind (.refl _)

/-- The start of a step, whose mode is the one of the siblings. -/
theorem PlayTreeIter.ready_keeps (iter : PlayTreeIter) (p : Nat) (draws : Nat) :
    Keeps iter { playTreeIterReady iter p with draws := (playTreeIterReady iter p).draws + draws }
      draws := by
  have hpop : (playTreeIterPopEntry iter).heap = iter.heap ∧
      (playTreeIterPopEntry iter).root = iter.root ∧
      (playTreeIterPopEntry iter).tree = iter.tree ∧
      (playTreeIterPopEntry iter).statusStack = iter.statusStack ∧
      (playTreeIterPopEntry iter).loop = iter.loop ∧
      (playTreeIterPopEntry iter).draws = iter.draws := by
    unfold playTreeIterPopEntry
    split <;> exact ⟨rfl, rfl, rfl, rfl, rfl, rfl⟩
  obtain ⟨hheap, hroot, htree, hstack, hloop, hdraws⟩ := hpop
  exact ⟨hheap, hroot, htree, hstack, hloop, by rw [← hdraws]; rfl⟩

theorem playTreeIterReady_mode (h : SameTree heap iter.heap) (p : Nat) :
    (playTreeIterReady iter p).mode = if playTreeRandom heap p then .rnd else .normal := by
  have hheap : (playTreeIterPopEntry iter).heap = iter.heap := by
    unfold playTreeIterPopEntry
    split <;> rfl
  simp only [playTreeIterReady, playTreeRandom, hheap, h.parent]
  obtain ⟨parent, hparent⟩ : ∃ parent, (heap p).parent = parent := ⟨_, rfl⟩
  simp only [hparent]
  cases parent with
  | none => rfl
  | some q => simp only [h.rnd, Option.any_some]

theorem Keeps.onLevel {iter' : PlayTreeIter} {draws : Nat} (hkeeps : Keeps iter iter' draws)
    (h : OnLevel heap root f iter parent g) : OnLevel heap root f iter' parent g := by
  refine ⟨?_, ?_, ?_⟩
  · rw [hkeeps.heap_eq]
    exact h.same
  · rw [hkeeps.root_eq]
    exact h.root_eq
  · rw [hkeeps.stack_eq]
    exact h.level

theorem Keeps.placed {iter' : PlayTreeIter} {draws : Nat} (hkeeps : Keeps iter iter' draws)
    (h : PlacedIn heap root f iter p parent g) : PlacedIn heap root f iter' p parent g :=
  ⟨hkeeps.onLevel h.toOnLevel, hkeeps.tree_eq.trans h.tree_eq, h.mem⟩

/-- A step over siblings that are played again. -/
theorem PlacedIn.loopsBack (h : PlacedIn heap root f iter p parent g)
    (hl : (playTreeLinks heap).Linked none none f) (hmode : iter.mode = .normal)
    (hloop : LoopsBack iter.heap iter.loop p d) :
    ∃ iter' c, PlacedIn heap root f iter' c parent g ∧ iter'.heap = iter.heap ∧
      ∀ step : Nat → PlayTreeIter → Int → Option (IterRet × PlayTreeIter),
        Settles (fun n => playTreeIterNoNext (step n) n iter root p d) fun n => step n iter' 0 := by
  have hg := hl.level h.level
  obtain ⟨q, hparent, hcond⟩ := hloop
  by_cases hd : 0 < d
  case pos =>
    obtain ⟨z, hz, hchain⟩ := tops_first hg h.mem
    refine ⟨{ iter with
      tree := some z
      loop := if 0 < iter.loop then iter.loop - 1 else iter.loop }, z,
      ⟨⟨h.same, h.root_eq, h.level⟩, rfl, hz⟩, rfl, fun step => ?_⟩
    simp only [playTreeIterNoNext, hmode, hparent, Option.map_some, reduceCtorEq, if_false,
      if_pos hcond, if_pos hd, h.same.prev]
    exact (playTreeFarthest_settles hchain).bind (.refl _)
  case neg =>
    obtain ⟨z, hz, hchain⟩ := tops_last hg h.mem
    refine ⟨{ iter with
      tree := some z
      loop := if 0 ≤ iter.loop ∧ iter.loop < (iter.heap q).loop then iter.loop + 1
        else iter.loop }, z,
      ⟨⟨h.same, h.root_eq, h.level⟩, rfl, hz⟩, rfl, fun step => ?_⟩
    simp only [playTreeIterNoNext, hmode, hparent, Option.map_some, reduceCtorEq, if_false,
      if_pos hcond, if_neg hd, h.same.next]
    exact (playTreeFarthest_settles hchain).bind (.refl _)

/-- A step at the end of siblings that aren't played again. -/
theorem noNext_up (hmode : iter.mode = .normal) (hloop : ¬LoopsBack iter.heap iter.loop p d)
    (step : PlayTreeIter → Int → Option (IterRet × PlayTreeIter)) (n : Nat) :
    playTreeIterNoNext step n iter root p d = playTreeIterUpStep step iter p d := by
  simp only [playTreeIterNoNext, hmode, reduceCtorEq, if_false]
  cases hp : (iter.heap p).parent with
  | none => rfl
  | some q =>
    simp only [Option.map_some]
    rw [if_neg fun hcond => hloop ⟨q, hp, hcond⟩]

/-- Going up ends at the root. -/
theorem PlacedIn.upStep_root (h : PlacedIn heap root f iter p none g)
    (hl : (playTreeLinks heap).Linked none none f) (hroot : (heap root).parent = none)
    (step : PlayTreeIter → Int → Option (IterRet × PlayTreeIter)) :
    playTreeIterUpStep step iter p d = some (.finish, { iter with file := -1 }) := by
  have hparent := tops_parent (hl.level h.level) h.mem
  simp only [playTreeIterUpStep, h.same.parent, hparent, h.root_eq, Option.bind_some, hroot,
    if_true]

/-- Going up to the parent. -/
theorem PlacedIn.upStep_parent (h : PlacedIn heap root f iter p (some q) g)
    (hl : (playTreeLinks heap).Linked none none f) (hroot : (heap root).parent = none) :
    ∃ iter' parent' g', PlacedIn heap root f iter' q parent' g' ∧
      (iter.mode = .normal → iter'.heap = iter.heap) ∧ iter'.draws = iter.draws ∧
      iter.statusStack = iter'.loop :: iter'.statusStack ∧
      ∀ step : PlayTreeIter → Int → Option (IterRet × PlayTreeIter),
        playTreeIterUpStep step iter p d = step iter' d := by
  have hparent := tops_parent (hl.level h.level) h.mem
  obtain ⟨parent', g', beside, n, hn, hlevel, hends⟩ : ∃ parent' g' beside n,
      iter.statusStack.length = n + 1 ∧ f.Level parent' g' n ∧ g'.Ends (.cons q g beside) := by
    generalize hn : iter.statusStack.length = m
    have hlevel := h.level
    rw [hn] at hlevel
    cases hlevel with
    | down hlevel hends => exact ⟨_, _, _, _, rfl, hlevel, hends⟩
  cases hstack : iter.statusStack with
  | nil =>
    rw [hstack] at hn
    cases hn
  | cons x stack =>
    rw [hstack, List.length_cons, Nat.succ.injEq] at hn
    subst hn
    by_cases hconfig : iter.config = true
    case pos =>
      refine ⟨{ iter with
        file := -1
        statusStack := stack
        loop := x
        tree := some q
        calls := iter.calls ++ [ConfigCall.pop]
        heap :=
          if iter.mode = .rnd then
            Function.update iter.heap q { iter.heap q with rndPlayed := true }
          else iter.heap }, parent', g', ⟨⟨?_, h.root_eq, hlevel⟩, rfl, hends.tops⟩,
        fun hmode => ?_, rfl, rfl, fun step => ?_⟩
      · dsimp only
        split
        case isTrue => exact h.same.update q true (iter.heap q).loop
        case isFalse => exact h.same
      · rw [hmode]
        rfl
      · simp only [playTreeIterUpStep, h.same.parent, hparent, h.root_eq, Option.bind_some,
          hroot, reduceCtorEq, if_false, hstack, hconfig, if_true]
    case neg =>
      refine ⟨{ iter with
        file := -1
        statusStack := stack
        loop := x
        tree := some q }, parent', g', ⟨⟨h.same, h.root_eq, hlevel⟩, rfl, hends.tops⟩,
        fun _ => rfl, rfl, rfl, fun step => ?_⟩
      simp only [playTreeIterUpStep, h.same.parent, hparent, h.root_eq, Option.bind_some,
        hroot, reduceCtorEq, if_false, hstack, hconfig]

/-- A step in random order that has drawn nothing. -/
theorem PlacedIn.noNext_random (h : PlacedIn heap root (.cons root below .nil) iter p (some q) g)
    (hl : (playTreeLinks heap).Linked none none (.cons root below .nil))
    (hmode : iter.mode = .rnd) (d : Int) :
    (∀ (step : PlayTreeIter → Int → Option (IterRet × PlayTreeIter)) (n : Nat),
        playTreeIterNoNext step n iter root p d = some (.finish, iter)) ∨
      ∃ iter', PlacedIn heap root (.cons root below .nil) iter' p (some q) g ∧
        (∀ r ∈ g.tops, (iter'.heap r).rndPlayed = false) ∧ iter'.draws = iter.draws ∧
        ∀ step : Nat → PlayTreeIter → Int → Option (IterRet × PlayTreeIter),
          Settles (fun n => playTreeIterNoNext (step n) n iter root p d)
            fun n => step n iter' 0 := by
  by_cases hloop : (iter.heap root).loop = 0
  case pos =>
    refine .inl fun step n => ?_
    simp only [playTreeIterNoNext, hmode, if_true, if_pos hloop]
  case neg =>
    have hroot := h.same.update root false (iter.heap root).loop
    have hunset := playTreeUnsetPlayed_settles (hroot.links ▸ hl.2.1)
    have hchild : (iter.heap root).child = below.head? := by
      rw [h.same.child]
      exact hl.1.2.2.1
    obtain ⟨heap1, hheap1⟩ : ∃ heap1, heap1 = unplayed (Function.update iter.heap root
      { iter.heap root with rndPlayed := false, loop := (iter.heap root).loop })
      below.nodes := ⟨_, rfl⟩
    have hsame1 : SameTree heap heap1 := by
      rw [hheap1]
      exact hroot.trans (unplayed_same _ _)
    have hplayed1 : ∀ r ∈ g.tops, r ≠ root ∧ (heap1 r).rndPlayed = false := by
      intro r hr
      have hne : r ≠ root := by
        rintro rfl
        cases (tops_parent (hl.level h.level) hr).symm.trans hl.1.1
      have hmem := h.level.nodes (Forest.tops_subset hr)
      rw [Forest.nodes, Forest.nodes, List.append_nil, List.mem_cons] at hmem
      refine ⟨hne, ?_⟩
      rw [hheap1, unplayed, if_pos (hmem.resolve_left hne)]
    refine .inr ⟨{ iter with
      heap :=
        if 0 < (heap1 root).loop then
          Function.update heap1 root { heap1 root with loop := (heap1 root).loop - 1 }
        else heap1 }, ⟨⟨?_, h.root_eq, h.level⟩, h.tree_eq, h.mem⟩, fun r hr => ?_, rfl,
      fun step => ?_⟩
    · dsimp only
      split
      case isTrue => exact hsame1.update root (heap1 root).rndPlayed _
      case isFalse => exact hsame1
    · obtain ⟨hne, hr⟩ := hplayed1 r hr
      dsimp only
      split
      case isTrue => rwa [Function.update_of_ne hne]
      case isFalse => exact hr
    · simp only [playTreeIterNoNext, hmode, if_true, if_neg hloop]
      rw [← hheap1, ← hchild] at hunset
      exact hunset.bind (.refl _)

/-- A step over siblings in order goes on with what it aims at. -/
theorem PlacedIn.call_normal (h : PlacedIn heap root f iter p parent g)
    (hrandom : playTreeRandom heap p = false) (withNodes : Bool) (d : Int)
    (step : PlayTreeIter → Int → Option (IterRet × PlayTreeIter)) (n : Nat) :
    playTreeIterCall step rand withNodes n iter d =
      match (playTreeIterAim heap p d).1 with
      | none => playTreeIterNoNext step n (playTreeIterReady iter p) root p
          (playTreeIterAim heap p d).2
      | some q => playTreeIterVisit step n (playTreeIterReady iter p) q
          (playTreeIterAim heap p d).2 withNodes := by
  have hmode := playTreeIterReady_mode h.same p
  have hheap : (playTreeIterReady iter p).heap = iter.heap := (iter.ready_keeps p 0).heap_eq
  rw [hrandom] at hmode
  simp only [playTreeIterCall, h.root_eq, h.tree_eq, playTreeIterFind, hmode, hheap, h.same.aim]
  rfl

/-- A step over siblings in random order goes on with what it draws. -/
theorem PlacedIn.call_random (h : PlacedIn heap root f iter p parent g)
    (hrandom : playTreeRandom heap p = true) (withNodes : Bool) (d : Int)
    (step : PlayTreeIter → Int → Option (IterRet × PlayTreeIter)) (n : Nat) :
    playTreeIterCall step rand withNodes n iter d =
      playTreeRndStep iter.heap (rand iter.draws) n p >>= fun pt =>
        match pt with
        | none => playTreeIterNoNext step n
            { playTreeIterReady iter p with draws := (playTreeIterReady iter p).draws + 1 } root p d
        | some q => playTreeIterVisit step n
            { playTreeIterReady iter p with draws := (playTreeIterReady iter p).draws + 1 } q d
            withNodes := by
  have hmode := playTreeIterReady_mode h.same p
  have hkeeps : Keeps iter (playTreeIterReady iter p) 0 := iter.ready_keeps p 0
  rw [hrandom] at hmode
  simp only [playTreeIterCall, h.root_eq, h.tree_eq, playTreeIterFind, hmode, hkeeps.heap_eq,
    hkeeps.draws_eq]
  cases playTreeRndStep iter.heap (rand iter.draws) n p with
  | none => rfl
  | some pt => cases pt <;> rfl

/-- One call of a step, from any place of a finite tree, whatever the calls do that it ends
in. -/
theorem PlacedIn.call (rand : Nat → Nat → Nat)
    (h : PlacedIn heap root (.cons root below .nil) iter p parent g)
    (hl : (playTreeLinks heap).Linked none none (.cons root below .nil)) (d : Int)
    (withNodes : Bool) :
    ∃ o, Called rand heap root (.cons root below .nil) iter p parent g d withNodes o ∧
      ∀ step : Nat → PlayTreeIter → Int → Option (IterRet × PlayTreeIter),
        Settles (fun n => playTreeIterCall (step n) rand withNodes n iter d)
          fun n => o.run (step n) := by
  have hg := hl.level h.level
  have hroot : (heap root).parent = none := hl.1.1
  have hmode := playTreeIterReady_mode h.same p
  cases hrandom : playTreeRandom heap p with
  | false =>
    have hkeeps : Keeps iter (playTreeIterReady iter p) 0 := iter.ready_keeps p 0
    have hplaced := hkeeps.placed h
    rw [hrandom] at hmode
    simp only [h.call_normal hrandom]
    obtain ⟨pt, d', haim⟩ : ∃ pt d', playTreeIterAim heap p d = (pt, d') := ⟨_, _, rfl⟩
    rw [haim]
    cases pt with
    | some q =>
      have hq := playTreeIterAim_tops hg h.mem (congrArg Prod.fst haim)
      obtain ⟨below', beside', hends⟩ := Forest.ends_of_tops hq
      obtain ⟨o, ho, hsettles⟩ := hplaced.visited hl hends d' withNodes
      exact ⟨o, .found hrandom haim hends hkeeps ho, hsettles⟩
    | none =>
      by_cases hloop : LoopsBack iter.heap iter.loop p d'
      case pos =>
        have hloop' := hloop
        rw [← hkeeps.heap_eq, ← hkeeps.loop_eq] at hloop'
        obtain ⟨iter', c, hc, hheap, hsettles⟩ := hplaced.loopsBack hl hmode hloop'
        exact ⟨_, .loop hrandom haim hloop hc (hheap.trans hkeeps.heap_eq), hsettles⟩
      case neg =>
        have hloop' := hloop
        rw [← hkeeps.heap_eq, ← hkeeps.loop_eq] at hloop'
        simp only [noNext_up hmode hloop']
        cases parent with
        | none =>
          have hend : PlacedIn heap root (.cons root below .nil)
              { playTreeIterReady iter p with file := -1 } p none g :=
            ⟨⟨hplaced.same, hplaced.root_eq, hplaced.level⟩, hplaced.tree_eq, h.mem⟩
          refine ⟨_, .finish hrandom haim hloop rfl hend, fun _ => ?_⟩
          simp only [hplaced.upStep_root hl hroot]
          exact .refl _
        | some q =>
          obtain ⟨iter', parent', g', hq, hheap, hdraws, hstack, hstep⟩ :=
            hplaced.upStep_parent hl hroot (d := d')
          refine ⟨_, .up hrandom haim hloop rfl hq ((hheap hmode).trans hkeeps.heap_eq)
            (hdraws.trans hkeeps.draws_eq) (hkeeps.stack_eq.symm.trans hstack), fun _ => ?_⟩
          simp only [hstep]
          exact .refl _
  | true =>
    have hkeeps := iter.ready_keeps p 1
    have hplaced := hkeeps.placed h
    rw [hrandom] at hmode
    simp only [h.call_random hrandom]
    obtain ⟨q, rfl⟩ : ∃ q, parent = some q := by
      rw [playTreeRandom, tops_parent hg h.mem] at hrandom
      cases parent with
      | none => cases hrandom
      | some q => exact ⟨q, rfl⟩
    obtain ⟨below', beside', hends⟩ := Forest.ends_of_tops h.mem
    have hdraw : Settles (fun n => playTreeRndStep iter.heap (rand iter.draws) n p)
        fun _ => some (drawnOf iter.heap (rand iter.draws) g.tops) :=
      playTreeRndStep_settles (h.same.links ▸ hg) hends _
    cases hpt : drawnOf iter.heap (rand iter.draws) g.tops with
    | some r =>
      rw [hpt] at hdraw
      have hr := drawnOf_mem hpt
      obtain ⟨below'', beside'', hends'⟩ := Forest.ends_of_tops hr
      obtain ⟨o, ho, hsettles⟩ := hplaced.visited hl hends' d withNodes
      exact ⟨o, .drawn hrandom hpt hends' hkeeps ho, fun step => hdraw.bind (hsettles step)⟩
    | none =>
      rw [hpt] at hdraw
      obtain hfinish | ⟨iter', hiter', hplayed, hdraws, hsettles⟩ :=
        hplaced.noNext_random hl hmode d
      case inl =>
        refine ⟨_, .drawnOut hrandom hpt hplaced, fun _ => hdraw.bind ?_⟩
        simp only [hfinish]
        exact .refl _
      case inr =>
        exact ⟨_, .afresh hrandom hpt hiter' hplayed (hdraws.trans hkeeps.draws_eq),
          fun step => hdraw.bind (hsettles step)⟩

/-- One call of a step, from any place of a finite tree. -/
theorem PlacedIn.called (rand : Nat → Nat → Nat)
    (h : PlacedIn heap root (.cons root below .nil) iter p parent g)
    (hl : (playTreeLinks heap).Linked none none (.cons root below .nil)) (d : Int)
    (withNodes : Bool) :
    ∃ o, Called rand heap root (.cons root below .nil) iter p parent g d withNodes o ∧
      Settles (fun n => playTreeIterStep rand withNodes (n + 1) iter d)
        fun n => o.run (playTreeIterStep rand withNodes n) := by
  obtain ⟨o, ho, hsettles⟩ := h.call rand hl d withNodes
  exact ⟨o, ho, hsettles (playTreeIterStep rand withNodes)⟩

end MPlayer
