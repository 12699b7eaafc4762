import MPlayer.PlayTree.Forward
import MPlayer.PlayTree.Returning

/-!
# Steps from any place of a tree

From every place that an iterator reaches in a finite tree, a step returns if and only if it
stays clear of items that aren't valid.  Then a single step forward comes to the next sibling
that is valid.

A node that is valid, though its first child isn't, is taken for an entry (`Misread`).  That
does harm in the steps that come to it, in the first call or in one of those that follow
(`ComesTo`).
-/

namespace MPlayer

open Lib

variable {rand : Nat → Nat → Nat} {heap : Nat → PlayTree} {root : Nat} {below g : Forest Nat}
  {iter : PlayTreeIter} {p q : Nat} {parent : Option Nat} {withNodes config : Bool} {d : Int}

/-- The iterators that steps lead to, and steps from the parent. -/
inductive Reached (rand : Nat → Nat → Nat) (heap : Nat → PlayTree) (root : Nat) (config : Bool) :
    PlayTreeIter → Prop where
  | new : Reached rand heap root config (playTreeIterNew heap root config)
  | step {iter iter' : PlayTreeIter} {d : Int} {withNodes : Bool} {ret : IterRet} :
      Reached rand heap root config iter → StepReturns rand withNodes iter d ret iter' →
      Reached rand heap root config iter'
  | up {iter iter' : PlayTreeIter} {p : Nat} {d : Int} {withNodes : Bool} {ret : IterRet} :
      Reached rand heap root config iter → iter.tree = some p →
      Returns (fun fuel => playTreeIterUpStep (playTreeIterStep rand withNodes fuel) iter p d)
        (ret, iter') →
      Reached rand heap root config iter'

/-- A node that is valid, though its first child isn't.  A call that finds it takes it for an
entry, and reads its list of files, which is `NULL`. -/
def Misread (heap : Nat → PlayTree) (p : Nat) : Prop :=
  (heap p).entryType = .node ∧ PlayTreeValid heap p ∧ ¬ChildValid heap p

/-- A call with the distance `d` finds the item `q`. -/
def FindsItem (rand : Nat → Nat → Nat) (iter : PlayTreeIter) (d : Int) (q : Nat) : Prop :=
  ∃ tree d', iter.tree = some tree ∧
    Returns (fun fuel => playTreeIterFind rand fuel (playTreeIterReady iter tree) tree d)
      (some q, d')

/-- A call ends in another one, from `iter'` with the distance `d'`, whatever that one gives. -/
def EndsInCall (rand : Nat → Nat → Nat) (withNodes : Bool) (iter : PlayTreeIter) (d : Int)
    (iter' : PlayTreeIter) (d' : Int) : Prop :=
  ∀ step : Nat → PlayTreeIter → Int → Option (IterRet × PlayTreeIter),
    Settles (fun n => playTreeIterCall (step n) rand withNodes n iter d) fun n => step n iter' d'

/-- The items that a step finds, in its first call and in those that follow. -/
inductive ComesTo (rand : Nat → Nat → Nat) (withNodes : Bool) :
    PlayTreeIter → Int → Nat → Prop where
  | here {iter : PlayTreeIter} {d : Int} {q : Nat} :
      FindsItem rand iter d q → ComesTo rand withNodes iter d q
  | later {iter iter' : PlayTreeIter} {d d' : Int} {q : Nat} :
      EndsInCall rand withNodes iter d iter' d' → ComesTo rand withNodes iter' d' q →
      ComesTo rand withNodes iter d q

/-- The next sibling that is valid. -/
inductive NextValid (heap : Nat → PlayTree) : Nat → Nat → Prop where
  | next {p q : Nat} : (heap p).next = some q → PlayTreeValid heap q → NextValid heap p q
  | skip {p q r : Nat} : (heap p).next = some q → ¬PlayTreeValid heap q → NextValid heap q r →
      NextValid heap p r

/-- The items at and below `p`. -/
inductive Within (heap : Nat → PlayTree) (p : Nat) : Nat → Prop where
  | self : Within heap p p
  | child {q r : Nat} : (heap r).parent = some q → Within heap p q → Within heap p r

/-- What is asked of a step: it returns, at an entry only if there are files, and from an item
of a level in order, a single step forward comes to the next sibling that is valid. -/
structure StepRight (rand : Nat → Nat → Nat) (withNodes : Bool) (iter : PlayTreeIter) (d : Int) :
    Prop where
  returns : ∃ ret iter', StepReturns rand withNodes iter d ret iter' ∧
    (ret = .entry → ∃ p, iter'.tree = some p ∧ (iter'.heap p).entryType ≠ .node)
  reaches : d = 1 → ∀ p q, iter.tree = some p → playTreeRandom iter.heap p = false →
    NextValid iter.heap p q → ∀ ret iter', StepReturns rand withNodes iter 1 ret iter' →
      ∃ t, iter'.tree = some t ∧ Within iter.heap q t ∧
        ((iter.heap q).child = none → ret = .entry ∧ t = q)

/-! ## Places -/

/-- The iterator hasn't started, or is at a place of the tree. -/
def InTree (heap : Nat → PlayTree) (root : Nat) (f : Forest Nat) (iter : PlayTreeIter) : Prop :=
  (iter.tree = none ∧ SameTree heap iter.heap ∧ iter.root = some root ∧ iter.statusStack = []) ∨
    ∃ p parent g, PlacedIn heap root f iter p parent g

/-- The first step starts at the root. -/
theorem InTree.start (rand : Nat → Nat → Nat) (below : Forest Nat) (withNodes : Bool)
    (htree : iter.tree = none) (hsame : SameTree heap iter.heap)
    (hroot : iter.root = some root) (hstack : iter.statusStack = []) (d : Int) :
    PlacedIn heap root (.cons root below .nil) { iter with tree := some root } root none
        (.cons root below .nil) ∧
      EndsInCall rand withNodes iter d { iter with tree := some root } 0 := by
  constructor
  case left =>
    refine ⟨⟨hsame, hroot, ?_⟩, rfl, List.mem_cons_self⟩
    rw [hstack]
    exact .top
  case right =>
    intro step
    simp only [playTreeIterCall, hroot, htree]
    exact .refl _

theorem InTree.step {n : Nat} {r : IterRet × PlayTreeIter}
    (hl : (playTreeLinks heap).Linked none none (.cons root below .nil))
    (h : InTree heap root (.cons root below .nil) iter)
    (hr : playTreeIterStep rand withNodes n iter d = some r) :
    InTree heap root (.cons root below .nil) r.2 := by
  obtain ⟨htree, hsame, hroot, hstack⟩ | ⟨p, parent, g, h⟩ := h
  case inl =>
    cases n with
    | zero => cases hr
    | succ n =>
      obtain ⟨hplaced, hcall⟩ := InTree.start rand below withNodes htree hsame hroot hstack d
      exact .inr (hplaced.step_placed hl ((hcall (playTreeIterStep rand withNodes)).1 n r hr))
  case inr => exact .inr (h.step_placed hl hr)

theorem Reached.inTree (hl : (playTreeLinks heap).Linked none none (.cons root below .nil))
    (h : Reached rand heap root config iter) :
    InTree heap root (.cons root below .nil) iter := by
  induction h with
  | new => exact .inl ⟨rfl, .refl heap, rfl, rfl⟩
  | step _ hstep ih =>
    obtain ⟨n, hn⟩ := hstep
    exact ih.step hl (hn n (Nat.le_refl n))
  | @up iter iter' p d withNodes ret _ htree hstep ih =>
    obtain ⟨n, hn⟩ := hstep
    have hr := hn n (Nat.le_refl n)
    obtain ⟨hnone, -⟩ | ⟨p', parent, g, hplaced⟩ := ih
    case inl => cases hnone.symm.trans htree
    case inr =>
      obtain rfl : p' = p := Option.some.inj (hplaced.tree_eq.symm.trans htree)
      dsimp only at hr
      cases parent with
      | none =>
        rw [hplaced.upStep_root hl hl.1.1] at hr
        cases hr
        exact .inr ⟨p', none, g, ⟨hplaced.same, hplaced.root_eq, hplaced.level⟩,
          hplaced.tree_eq, hplaced.mem⟩
      | some q =>
        obtain ⟨iter1, parent', g', hq, -, -, -, heq⟩ := hplaced.upStep_parent hl hl.1.1
        rw [heq] at hr
        exact .inr (hq.step_placed hl hr)

/-! ## Entries and siblings -/

/-- What the call finds is what it aims at, or draws. -/
theorem PlacedIn.findsItem_iff (hl : (playTreeLinks heap).Linked none none (.cons root below .nil))
    (h : PlacedIn heap root (.cons root below .nil) iter p parent g) :
    FindsItem rand iter d q ↔
      if playTreeRandom heap p then drawnOf iter.heap (rand iter.draws) g.tops = some q
      else (playTreeIterAim heap p d).1 = some q := by
  have hmode := playTreeIterReady_mode h.same p
  have hkeeps : Keeps iter (playTreeIterReady iter p) 0 := iter.ready_keeps p 0
  have hfinds : FindsItem rand iter d q ↔ ∃ d',
      Returns (fun fuel => playTreeIterFind rand fuel (playTreeIterReady iter p) p d)
        (some q, d') := by
    constructor
    case mp =>
      rintro ⟨tree, d', htree, hfind⟩
      cases h.tree_eq.symm.trans htree
      exact ⟨d', hfind⟩
    case mpr =>
      rintro ⟨d', hfind⟩
      exact ⟨p, d', h.tree_eq, hfind⟩
  rw [hfinds]
  cases hrandom : playTreeRandom heap p with
  | true =>
    rw [hrandom] at hmode
    obtain ⟨_, _, hends⟩ := Forest.ends_of_tops h.mem
    have hdraw := (playTreeRndStep_settles (h.same.links ▸ hl.level h.level) hends
      (rand iter.draws)).map fun pt => (pt, d)
    simp only [playTreeIterFind, hmode, hkeeps.heap_eq, hkeeps.draws_eq, if_true]
    constructor
    · rintro ⟨d', hq⟩
      exact (Prod.mk.inj (hdraw.eq_of_returns hq)).1
    · intro hq
      rw [hq] at hdraw
      exact ⟨d, hdraw.returns⟩
  | false =>
    rw [hrandom] at hmode
    simp only [playTreeIterFind, hmode, hkeeps.heap_eq, h.same.aim, Bool.false_eq_true, if_false]
    constructor
    · rintro ⟨d', N, hN⟩
      rw [Option.some.inj (hN N (Nat.le_refl N))]
    · intro hq
      refine ⟨(playTreeIterAim heap p d).2, 0, fun _ _ => ?_⟩
      rw [← hq]

/-- A call ends in one other call at most. -/
theorem EndsInCall.eq_again {iter' : PlayTreeIter} {d' : Int} {o : CallOutcome}
    (h : EndsInCall rand withNodes iter d iter' d')
    (hcall : ∀ step : Nat → PlayTreeIter → Int → Option (IterRet × PlayTreeIter),
      Settles (fun n => playTreeIterCall (step n) rand withNodes n iter d)
        fun n => o.run (step n)) : o = .again iter' d' := by
  classical
  -- Of all calls, only that one gives nothing.
  obtain ⟨step, hstep⟩ : ∃ step : PlayTreeIter → Int → Option (IterRet × PlayTreeIter),
      ∀ i e, step i e = none ↔ i = iter' ∧ e = d' :=
    ⟨fun i e => if i = iter' ∧ e = d' then none else some (.entry, i), fun i e => by simp⟩
  obtain ⟨-, N, hN⟩ := h fun _ => step
  obtain ⟨-, M, hM⟩ := hcall fun _ => step
  have hrun : o.run step = none :=
    (hM (max N M) (Nat.le_max_right N M)).symm.trans ((hN (max N M) (Nat.le_max_left N M)).trans
      ((hstep iter' d').mpr ⟨rfl, rfl⟩))
  cases o with
  | done ret iter'' => cases hrun
  | again iter'' d'' =>
    obtain ⟨rfl, rfl⟩ := (hstep iter'' d'').mp hrun
    rfl

/-- One call of a step, the first one included. -/
theorem InTree.call (rand : Nat → Nat → Nat) (withNodes : Bool) (d : Int)
    (hl : (playTreeLinks heap).Linked none none (.cons root below .nil))
    (h : InTree heap root (.cons root below .nil) iter) :
    ∃ o : CallOutcome, InTree heap root (.cons root below .nil) o.iterator ∧
      ∀ step : Nat → PlayTreeIter → Int → Option (IterRet × PlayTreeIter),
        Settles (fun n => playTreeIterCall (step n) rand withNodes n iter d)
          fun n => o.run (step n) := by
  obtain ⟨htree, hsame, hroot, hstack⟩ | ⟨p, parent, g, h⟩ := h
  case inl =>
    obtain ⟨hplaced, hcall⟩ := InTree.start rand below withNodes htree hsame hroot hstack d
    exact ⟨.again { iter with tree := some root } 0, .inr ⟨_, _, _, hplaced⟩, hcall⟩
  case inr =>
    obtain ⟨o, ho, hsettles⟩ := h.call rand hl d withNodes
    exact ⟨o, .inr (ho.placed h), hsettles⟩

/-- A node whose first child isn't valid is entered. -/
theorem Visited.misread {ds : Forest Nat} {o : CallOutcome} {f : Forest Nat}
    (ho : Visited heap root f iter q ds d withNodes o) (hq : Misread heap q) :
    ∃ iter', o = .done .entry iter' ∧ SameTree heap iter'.heap ∧ iter'.tree = some q := by
  obtain ⟨-, hvalid, hchild⟩ := hq
  cases ho with
  | node hvalid' => exact absurd hvalid' hchild
  | down hvalid' => exact absurd hvalid' hchild
  | error hinvalid => exact absurd hvalid hinvalid
  | missed hinvalid => exact absurd hvalid hinvalid
  | entry _ _ hsame _ htree => exact ⟨_, rfl, hsame, htree⟩

/-- A step that comes to a node whose first child isn't valid stops there, as at an entry. -/
theorem ComesTo.misread (hl : (playTreeLinks heap).Linked none none (.cons root below .nil))
    (h : ComesTo rand withNodes iter d q) (hiter : InTree heap root (.cons root below .nil) iter)
    (hq : Misread heap q) :
    ∃ iter', StepReturns rand withNodes iter d .entry iter' ∧ iter'.tree = some q ∧
      (iter'.heap q).entryType = .node := by
  induction h with
  | @here iter d q hfinds =>
    obtain ⟨hnone, -⟩ | ⟨p, parent, g, hplaced⟩ := hiter
    case inl =>
      obtain ⟨tree, _, htree, -⟩ := hfinds
      cases hnone.symm.trans htree
    case inr =>
      rw [hplaced.findsItem_iff hl] at hfinds
      obtain ⟨o, ho, hsettles⟩ := hplaced.called rand hl d withNodes
      have hvisited : ∀ {iter' ds d'}, Visited heap root (.cons root below .nil) iter' q ds d'
          withNodes o → ∃ iter', StepReturns rand withNodes iter d .entry iter' ∧
          iter'.tree = some q ∧ (iter'.heap q).entryType = .node := by
        intro iter' ds d' hv
        obtain ⟨iter'', rfl, hsame, htree⟩ := hv.misread hq
        refine ⟨iter'', hsettles.returns_succ (.of_forall 0 fun _ _ => rfl), htree, ?_⟩
        rw [hsame.entryType]
        exact hq.1
      cases ho with
      | found hrandom haim _ _ hv =>
        simp only [hrandom, haim, Bool.false_eq_true, if_false, Option.some.injEq] at hfinds
        subst hfinds
        exact hvisited hv
      | loop hrandom haim | finish hrandom haim | up hrandom haim =>
        simp only [hrandom, haim, Bool.false_eq_true, if_false, reduceCtorEq] at hfinds
      | drawn hrandom hdrawn _ _ hv =>
        simp only [hrandom, hdrawn, if_true, Option.some.injEq] at hfinds
        subst hfinds
        exact hvisited hv
      | drawnOut hrandom hnone | afresh hrandom hnone =>
        simp only [hrandom, hnone, if_true, reduceCtorEq] at hfinds
  | later hcall _ ih =>
    obtain ⟨o, ho, hsettles⟩ := hiter.call rand withNodes _ hl
    rw [hcall.eq_again hsettles] at ho
    obtain ⟨iter', hr, htree, hnode⟩ := ih ho hq
    exact ⟨iter', (hcall (playTreeIterStep rand withNodes)).returns_succ hr, htree, hnode⟩

/-- A step that stops at an entry stops at one with files, unless it comes to a node whose first
child isn't valid. -/
theorem InTree.entry_files (hl : (playTreeLinks heap).Linked none none (.cons root below .nil)) :
    ∀ {n : Nat} {iter : PlayTreeIter} {d : Int} {r : IterRet × PlayTreeIter},
    InTree heap root (.cons root below .nil) iter →
    (∀ q, ComesTo rand withNodes iter d q → ¬Misread heap q) →
    playTreeIterStep rand withNodes n iter d = some r →
    r.1 = .entry → ∃ p, r.2.tree = some p ∧ (r.2.heap p).entryType ≠ .node
  | 0, _, _, _, _, _, hr => by cases hr
  | n + 1, iter, d, r, h, hclear, hr => by
    obtain ⟨htree, hsame, hroot, hstack⟩ | ⟨p, parent, g, h⟩ := h
    case inl =>
      obtain ⟨hplaced, hcall⟩ := InTree.start rand below withNodes htree hsame hroot hstack d
      exact InTree.entry_files hl (.inr ⟨_, _, _, hplaced⟩) (fun q hq => hclear q (.later hcall hq))
        ((hcall (playTreeIterStep rand withNodes)).1 n r hr)
    case inr =>
      obtain ⟨o, ho, hsettles⟩ := h.call rand hl d withNodes
      have hrun := (hsettles (playTreeIterStep rand withNodes)).1 n r hr
      have hvisited : ∀ {iter' q ds d'}, FindsItem rand iter d q →
          Visited heap root (.cons root below .nil) iter' q ds d' withNodes o →
          ∀ ret iter'', o = .done ret iter'' → ret = .entry →
          ∃ p, iter''.tree = some p ∧ (iter''.heap p).entryType ≠ .node := by
        intro iter' q ds d' hfinds hv ret iter'' heq hret
        cases hv with
        | node | error =>
          cases heq
          cases hret
        | down | missed => cases heq
        | entry hvalid hnot hsame _ htree =>
          cases heq
          refine ⟨q, htree, fun hnode => ?_⟩
          rw [hsame.entryType] at hnode
          exact hclear q (.here hfinds) ⟨hnode, hvalid, hnot⟩
      have hplaced := ho.placed h
      cases o with
      | again iter' d' =>
        exact InTree.entry_files hl (.inr hplaced) (fun q hq => hclear q (.later hsettles hq)) hrun
      | done ret iter' =>
        cases hrun
        cases ho with
        | found hrandom haim _ _ hv =>
          refine hvisited ((h.findsItem_iff hl).mpr ?_) hv _ _ rfl
          rw [hrandom, haim]
          rfl
        | drawn hrandom hdrawn _ _ hv =>
          refine hvisited ((h.findsItem_iff hl).mpr ?_) hv _ _ rfl
          rw [hrandom, if_pos rfl, hdrawn]
        | finish | drawnOut => exact nofun

/-- A step without a distance stays below `s`. -/
theorem PlacedIn.zero_within {s : Nat}
    (hl : (playTreeLinks heap).Linked none none (.cons root below .nil)) :
    ∀ {n : Nat} {g : Forest Nat} {iter : PlayTreeIter} {p par : Nat} {r : IterRet × PlayTreeIter},
    PlacedIn heap root (.cons root below .nil) iter p (some par) g → Within heap s par →
    playTreeIterStep rand withNodes n iter 0 = some r →
    ∃ t, r.2.tree = some t ∧ Within heap s t
  | 0, _, _, _, _, _, _, _, hr => by cases hr
  | n + 1, g, iter, p, par, r, h, hpar, hr => by
    obtain ⟨o, ho, hsettles⟩ := h.called rand hl 0 withNodes
    have hrun := hsettles.1 n r hr
    have htop : ∀ {q}, q ∈ g.tops → Within heap s q := fun hq =>
      .child (tops_parent (hl.level h.level) hq) hpar
    have hvisited : ∀ {iter' q ds bs}, Visited heap root (.cons root below .nil) iter' q ds 0
        withNodes o → g.Ends (.cons q ds bs) → iter'.tree = some p →
        ∃ t, r.2.tree = some t ∧ Within heap s t := by
      intro iter' q ds bs hv hends hkept
      cases hv with
      | node =>
        cases hrun
        exact ⟨q, rfl, htop hends.tops⟩
      | down _ hplaced => exact hplaced.zero_within hl (htop hends.tops) hrun
      | error =>
        cases hrun
        exact ⟨p, hkept, htop h.mem⟩
      | missed _ hd => exact absurd rfl hd
      | entry _ _ _ _ htree =>
        cases hrun
        exact ⟨q, htree, htop hends.tops⟩
    cases ho with
    | found _ haim hends hkeeps hv =>
      obtain rfl := (Prod.mk.inj haim).2
      exact hvisited hv hends (hkeeps.tree_eq.trans h.tree_eq)
    | drawn _ _ hends hkeeps hv => exact hvisited hv hends (hkeeps.tree_eq.trans h.tree_eq)
    | loop _ haim | finish _ haim | up _ haim => cases (Prod.mk.inj haim).1
    | drawnOut _ _ hplaced =>
      cases hrun
      exact ⟨p, hplaced.tree_eq, htop h.mem⟩
    | afresh _ _ hplaced => exact hplaced.zero_within hl hpar hrun

/-- A step forward to an item that is valid comes to it. -/
theorem PlacedIn.next_within (hl : (playTreeLinks heap).Linked none none (.cons root below .nil))
    {n : Nat} {r : IterRet × PlayTreeIter}
    (h : PlacedIn heap root (.cons root below .nil) iter p parent g)
    (hrandom : playTreeRandom heap p = false) (hnext : (heap p).next = some q)
    (hvalid : PlayTreeValid heap q)
    (hr : playTreeIterStep rand withNodes n iter 1 = some r) :
    ∃ t, r.2.tree = some t ∧ Within heap q t ∧ ((heap q).child = none → r.1 = .entry ∧ t = q) := by
  cases n with
  | zero => cases hr
  | succ n =>
    obtain ⟨o, ho, hsettles⟩ := h.called rand hl 1 withNodes
    have hrun := hsettles.1 n r hr
    have haim : playTreeIterAim heap p 1 = (some q, 1) := by rw [playTreeIterAim_one, hnext]
    have hleaf : (heap q).child = none → ¬ChildValid heap q := by
      rintro hchild ⟨N, hN⟩
      have hnone := hN N (Nat.le_refl N)
      simp only [playTreeChildValid, hchild] at hnone
      cases hnone
    cases ho with
    | @found _ q' _ _ _ _ _ haim' hends hkeeps hv =>
      cases haim.symm.trans haim'
      cases hv with
      | node hchild =>
        cases hrun
        exact ⟨q, rfl, .self, fun hnone => absurd hchild (hleaf hnone)⟩
      | down hchild hplaced =>
        obtain ⟨t, ht, hwithin⟩ := hplaced.zero_within hl .self hrun
        exact ⟨t, ht, hwithin, fun hnone => absurd hchild (hleaf hnone)⟩
      | error hinvalid | missed hinvalid => exact absurd hvalid hinvalid
      | entry _ _ _ _ htree =>
        cases hrun
        exact ⟨q, htree, .self, fun _ => ⟨rfl, rfl⟩⟩
    | loop _ haim' | finish _ haim' | up _ haim' => cases haim.symm.trans haim'
    | drawn hnot | drawnOut hnot | afresh hnot => cases hrandom.symm.trans hnot

theorem SameTree.within {heap' : Nat → PlayTree} (h : SameTree heap heap') {t : Nat}
    (ht : Within heap q t) : Within heap' q t := by
  induction ht with
  | self => exact .self
  | child hparent _ ih => exact .child ((h.parent _).trans hparent) ih

/-- From every place of a tree, a step does what is asked of it if and only if it stays clear of
items that aren't valid, and comes to no node whose first child alone isn't. -/
theorem play_tree_iter_step_returns (hrand : ∀ n, 0 < n → ∀ k, ∃ j, k ≤ j ∧ rand j n < n)
    (hl : (playTreeLinks heap).Linked none none (.cons root below .nil))
    (h : Reached rand heap root config iter) (withNodes : Bool) (d : Int) :
    StepRight rand withNodes iter d ↔
      iter.AimsValid rand d ∧ ∀ q, ComesTo rand withNodes iter d q → ¬Misread heap q := by
  have hin := h.inTree hl
  have hentry : StepRight rand withNodes iter d →
      ∀ q, ComesTo rand withNodes iter d q → ¬Misread heap q := by
    intro hright q hq hmisread
    obtain ⟨iter', hr, htree, hnode⟩ := hq.misread hl hin hmisread
    obtain ⟨ret, iter'', hr', hfiles⟩ := hright.returns
    cases hr.unique hr'
    obtain ⟨p, hp, hne⟩ := hfiles rfl
    cases htree.symm.trans hp
    exact hne hnode
  obtain ⟨htree, hsame, hroot, hstack⟩ | ⟨p, parent, g, h⟩ := hin
  case inl =>
    refine ⟨fun hright => ⟨fun p hp => ?_, hentry hright⟩, fun hcond => ⟨?_, fun _ p _ hp => ?_⟩⟩
    · cases htree.symm.trans hp
    · obtain ⟨hplaced, hcall⟩ := InTree.start rand below withNodes htree hsame hroot hstack d
      obtain ⟨⟨ret, iter'⟩, hr⟩ : StepEnds rand withNodes _ 0 := hplaced.zero_ends hl hrand
      have hret : StepReturns rand withNodes iter d ret iter' :=
        (hcall (playTreeIterStep rand withNodes)).returns_succ hr
      obtain ⟨N, hN⟩ := hret
      exact ⟨ret, iter', ⟨N, hN⟩, InTree.entry_files hl (.inl ⟨htree, hsame, hroot, hstack⟩)
        hcond.2 (hN N (Nat.le_refl N))⟩
    · cases htree.symm.trans hp
  case inr =>
    constructor
    case mp =>
      refine fun hright => ⟨fun p' hp' => ?_, hentry hright⟩
      obtain rfl : p = p' := Option.some.inj (h.tree_eq.symm.trans hp')
      refine Classical.byContradiction fun hnot => ?_
      obtain ⟨ret, iter', ⟨N, hN⟩, -⟩ := hright.returns
      have hnone : playTreeIterStep rand withNodes N iter d = none := h.never hl hnot
      cases hnone.symm.trans (hN N (Nat.le_refl N))
    case mpr =>
      rintro ⟨haims, hclear⟩
      have haims := haims p h.tree_eq
      refine ⟨?_, fun hd p' q hp' hrandom hnext ret iter' hstep => ?_⟩
      · obtain ⟨⟨ret, iter'⟩, N, hN⟩ : StepEnds rand withNodes iter d := h.ends hl hrand haims
        exact ⟨ret, iter', ⟨N, hN⟩, InTree.entry_files hl (.inr ⟨p, parent, g, h⟩) hclear
          (hN N (Nat.le_refl N))⟩
      · obtain rfl : p = p' := Option.some.inj (h.tree_eq.symm.trans hp')
        subst hd
        obtain ⟨N, hN⟩ := hstep
        rw [AimsValid.eq_from] at haims
        rw [h.same.random] at hrandom
        have hvalid := (haims.elim h.same (by decide)).2 hrandom
        cases hnext with
        | next hnext hq =>
          rw [h.same.next] at hnext
          rw [h.same.valid] at hq
          obtain ⟨t, ht, hwithin, hleaf⟩ :=
            h.next_within hl hrandom hnext hq (hN N (Nat.le_refl N))
          rw [h.same.child]
          exact ⟨t, ht, h.same.within hwithin, hleaf⟩
        | @skip _ q' _ hnext hq =>
          rw [h.same.next] at hnext
          rw [h.same.valid] at hq
          have haim : playTreeIterAim heap p 1 = (some q', 1) := by
            rw [playTreeIterAim_one, hnext]
          obtain hr | hr := hvalid _ _ haim
          · exact absurd hr hq
          · exact absurd (hr _ (congrArg Prod.fst haim)) hq

/-- Two entries in front of a node whose first child has no children. -/
def behindHeap : Nat → PlayTree
  | 0 => playNode none (some 1) none none 0
  | 1 => playEntry (some 0) (some 2) none "first"
  | 2 => playEntry (some 0) (some 3) (some 1) "second"
  | 3 => playNode (some 0) (some 4) none (some 2) 0
  | 4 => playNode (some 3) none (some 5) none 0
  | _ => playEntry (some 3) none (some 4) "below"

def behindForest : Forest Nat :=
  .cons 0 (.cons 1 .nil (.cons 2 .nil (.cons 3 (.cons 4 .nil (.cons 5 .nil .nil)) .nil))) .nil

/-- The iterator at the first entry. -/
def behindIter : PlayTreeIter :=
  { playTreeIterNew behindHeap 0 false with
    tree := some 1, statusStack := [0], loop := -1, file := -1, numFiles := 1 }

theorem behindHeap_linked : (playTreeLinks behindHeap).Linked none none behindForest :=
  ⟨⟨rfl, rfl, rfl, rfl⟩, ⟨⟨rfl, rfl, rfl, rfl⟩, trivial, ⟨rfl, rfl, rfl, rfl⟩, trivial,
    ⟨rfl, rfl, rfl, rfl⟩, ⟨⟨rfl, rfl, rfl, rfl⟩, trivial, ⟨rfl, rfl, rfl, rfl⟩, trivial,
      trivial⟩, trivial⟩, trivial⟩

theorem behindIter_reached (rand : Nat → Nat → Nat) :
    Reached rand behindHeap 0 false behindIter := by
  have hstep : StepReturns rand false (playTreeIterNew behindHeap 0 false) 0 .entry behindIter := by
    refine ⟨10, fun n hn => ?_⟩
    obtain ⟨n, rfl⟩ := Nat.exists_eq_add_of_le' hn
    rfl
  exact .step .new hstep

/-- A step to the second entry doesn't come to the node. -/
theorem behindIter_comesTo {rand : Nat → Nat → Nat} (h : ComesTo rand false behindIter 1 q) :
    q = 2 := by
  cases h with
  | here hfinds =>
    obtain ⟨tree, d', htree, N, hN⟩ := hfinds
    cases htree
    cases hN N (Nat.le_refl N)
    rfl
  | later hcall _ =>
    have hdone := hcall.eq_again (o := .done .entry { behindIter with tree := some 2 })
      fun step => .refl _
    cases hdone

/-- A step of one item does what is asked of it, though there is a node farther on whose first
child isn't valid. -/
theorem play_tree_iter_step_returns_second :
    Misread behindHeap 3 ∧ StepRight (fun _ _ => 0) false behindIter 1 := by
  refine ⟨⟨rfl, ⟨3, fun n hn => ?_⟩, ?_⟩, ?_⟩
  · obtain ⟨n, rfl⟩ := Nat.exists_eq_add_of_le' hn
    rfl
  · rintro ⟨N, hN⟩
    cases hN (N + 1) (Nat.le_succ N)
  · refine (play_tree_iter_step_returns (fun n hn k => ⟨k, Nat.le_refl k, hn⟩) behindHeap_linked
      (behindIter_reached _) false 1).mpr ⟨fun p hp => ?_, fun q hq hmisread => ?_⟩
    · cases hp
      exact .inl ⟨0, fun _ _ => rfl⟩
    · cases behindIter_comesTo hq
      cases hmisread.1

/-- A node without children between two entries. -/
def gapHeap : Nat → PlayTree
  | 0 => playNode none (some 1) none none 0
  | 1 => playEntry (some 0) (some 2) none "first"
  | 2 => playNode (some 0) none (some 3) (some 1) 0
  | _ => playEntry (some 0) none (some 2) "last"

def gapForest : Forest Nat := .cons 0 (.cons 1 .nil (.cons 2 .nil (.cons 3 .nil .nil))) .nil

/-- The iterator at the first entry. -/
def gapIter : PlayTreeIter :=
  { playTreeIterNew gapHeap 0 false with
    tree := some 1, statusStack := [0], loop := -1, file := -1, numFiles := 1 }

theorem gapHeap_linked : (playTreeLinks gapHeap).Linked none none gapForest :=
  ⟨⟨rfl, rfl, rfl, rfl⟩, ⟨⟨rfl, rfl, rfl, rfl⟩, trivial, ⟨rfl, rfl, rfl, rfl⟩, trivial,
    ⟨rfl, rfl, rfl, rfl⟩, trivial, trivial⟩, trivial⟩

theorem gapIter_reached (rand : Nat → Nat → Nat) : Reached rand gapHeap 0 false gapIter := by
  have hstep : StepReturns rand false (playTreeIterNew gapHeap 0 false) 0 .entry gapIter := by
    refine ⟨10, fun n hn => ?_⟩
    obtain ⟨n, rfl⟩ := Nat.exists_eq_add_of_le' hn
    rfl
  exact .step .new hstep

theorem gapHeap_valid {p : Nat} (h : (gapHeap p).entryType ≠ .node) : PlayTreeValid gapHeap p :=
  ⟨0, fun n _ => by simp only [playTreeIsValid, if_pos h]⟩

theorem gapHeap_gap : ¬PlayTreeValid gapHeap 2 := by
  rintro ⟨N, hN⟩
  have h := hN (N + 1) (Nat.le_succ N)
  simp [playTreeIsValid, playTreeAnyValid, gapHeap, playNode] at h

/-- A step of one item comes to the node and doesn't return, though there is an entry behind. -/
theorem play_tree_iter_step_stuck :
    (playTreeLinks gapHeap).Linked none none gapForest ∧
      Reached (fun _ _ => 0) gapHeap 0 false gapIter ∧ gapIter.tree = some 1 ∧
      PlayTreeValid gapHeap 1 ∧ NextValid gapHeap 1 3 ∧
      ∀ fuel, playTreeIterStep (fun _ _ => 0) false fuel gapIter 1 = none := by
  have hplaced : PlacedIn gapHeap 0 gapForest gapIter 1 (some 0)
      (.cons 1 .nil (.cons 2 .nil (.cons 3 .nil .nil))) :=
    ⟨⟨.refl gapHeap, rfl, .down .top (.refl _)⟩, rfl, List.mem_cons_self⟩
  refine ⟨gapHeap_linked, gapIter_reached _, rfl, gapHeap_valid (by decide),
    .skip rfl gapHeap_gap (.next rfl (gapHeap_valid (by decide))),
    fun fuel => hplaced.never gapHeap_linked ?_⟩
  rintro (h | h)
  case inl => exact gapHeap_gap h
  case inr => exact gapHeap_gap (h 2 rfl)

end MPlayer
