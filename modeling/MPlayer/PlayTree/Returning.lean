import MPlayer.PlayTree.Calls

/-!
# Steps that return

A step that finds an item which isn't valid goes on with another step, from where it was.  So
it comes to the same item again, and never returns.  Every other call ends in one that is
nearer to its end: a call with a distance goes up, and after it has found an item, or gone back
to the first sibling, there are only calls without a distance, which go down.

`AimsValid` says which steps don't come to such an item.  They are the ones that return
(`PlacedIn.returns`, `PlacedIn.never`).
-/

namespace MPlayer

open Lib

variable {rand : Nat → Nat → Nat} {heap : Nat → PlayTree} {root : Nat} {below g : Forest Nat}
  {iter : PlayTreeIter} {p q : Nat} {parent : Option Nat} {withNodes : Bool} {d : Int}

/-! ## Aims -/

/-- `play_tree_iter_step(iter, d, with_nodes)` returns `ret`. -/
def StepReturns (rand : Nat → Nat → Nat) (withNodes : Bool) (iter : PlayTreeIter) (d : Int)
    (ret : IterRet) (iter' : PlayTreeIter) : Prop :=
  Returns (fun fuel => playTreeIterStep rand withNodes fuel iter d) (ret, iter')

/-- `play_tree_rnd_step(p)` draws `q`. -/
def RndDraws (heap : Nat → PlayTree) (rand : Nat → Nat) (p q : Nat) : Prop :=
  Returns (fun fuel => playTreeRndStep heap rand fuel p) (some q)

/-- A step by `d` from `p` stays clear of items that aren't valid, as `up` says of the steps
from the parent.  One that isn't valid is no harm if it is farther away than the next one, which
the step turns to then, or if another draw follows. -/
def AimsFrom (rand : Nat → Nat → Nat) (heap : Nat → PlayTree) (draws : Nat)
    (up : Nat → Int → Prop) (loop : Int) (p : Nat) (d : Int) : Prop :=
  if d = 0 then True
  else if playTreeRandom heap p then
    ∃ j, draws ≤ j ∧ ∀ q, RndDraws heap (rand j) p q → PlayTreeValid heap q
  else
    match playTreeIterAim heap p d with
    | (some q, d') => PlayTreeValid heap q ∨
        ∀ q', (playTreeIterAim heap p d').1 = some q' → PlayTreeValid heap q'
    | (none, d') => LoopsBack heap loop p d' ∨
        ∀ parent, (heap p).parent = some parent → up parent d'

/-- A step by `d` from `p` stays clear of items that aren't valid, at every level that it comes
up to. -/
def AimsValid (rand : Nat → Nat → Nat) (heap : Nat → PlayTree) (draws : Nat) :
    List Int → Int → Nat → Int → Prop
  | [] => AimsFrom rand heap draws fun _ _ => True
  | loop :: stack => AimsFrom rand heap draws (AimsValid rand heap draws stack loop)

/-- `AimsValid`, from the parent. -/
def AimsAbove (rand : Nat → Nat → Nat) (heap : Nat → PlayTree) (draws : Nat) :
    List Int → Nat → Int → Prop
  | [] => fun _ _ => True
  | loop :: stack => AimsValid rand heap draws stack loop

theorem AimsValid.eq_from (rand : Nat → Nat → Nat) (heap : Nat → PlayTree) (draws : Nat)
    (stack : List Int) :
    AimsValid rand heap draws stack = AimsFrom rand heap draws (AimsAbove rand heap draws stack) :=
  by cases stack <;> rfl

/-- `AimsValid`, from where the iterator is. -/
def PlayTreeIter.AimsValid (rand : Nat → Nat → Nat) (iter : PlayTreeIter) (d : Int) : Prop :=
  ∀ p, iter.tree = some p →
    MPlayer.AimsValid rand iter.heap iter.draws iter.statusStack iter.loop p d

theorem SameTree.random {heap' : Nat → PlayTree} (h : SameTree heap heap') (p : Nat) :
    playTreeRandom heap' p = playTreeRandom heap p := by
  simp only [playTreeRandom, h.parent, h.rnd]

theorem SameTree.valid {heap' : Nat → PlayTree} (h : SameTree heap heap') (p : Nat) :
    PlayTreeValid heap' p ↔ PlayTreeValid heap p := by
  simp only [PlayTreeValid, h.isValid]

theorem playTreeWalk_some {link : Nat → Option Nat} : ∀ {n p q : Nat},
    (playTreeWalk link n (some p)).1 = some q → (playTreeWalk link n (some p)).2 = 0
  | 0, _, _, _ => rfl
  | n + 1, p, q, h => by
    rw [playTreeWalk] at h ⊢
    cases hp : link p with
    | none =>
      rw [hp] at h
      cases n <;> cases h
    | some p' =>
      rw [hp] at h
      exact playTreeWalk_some h

variable {d' : Int} {f : Forest Nat} {o : CallOutcome}

/-- A step that has found an item has one more step to go if the item isn't valid. -/
theorem playTreeIterAim_found (hd : d ≠ 0) (h : playTreeIterAim heap p d = (some q, d')) :
    d' = 1 ∨ d' = -1 := by
  unfold playTreeIterAim at h
  split at h
  case isTrue =>
    obtain ⟨hq, hd'⟩ := Prod.mk.inj h
    rw [if_neg (Decidable.not_not.mpr (playTreeWalk_some hq))] at hd'
    exact .inl hd'.symm
  case isFalse =>
    split at h
    case isTrue =>
      obtain ⟨hq, hd'⟩ := Prod.mk.inj h
      rw [if_neg (Decidable.not_not.mpr (playTreeWalk_some hq))] at hd'
      exact .inr hd'.symm
    case isFalse => exact absurd (by omega) hd

/-- Where a step has found an item, a shorter one finds one too. -/
theorem playTreeIterAim_next (hd : d ≠ 0) (h : playTreeIterAim heap p d = (some q, d')) :
    ∃ q', (playTreeIterAim heap p d').1 = some q' := by
  have hlink : ∀ {link : Nat → Option Nat} {n : Nat}, n ≠ 0 →
      (playTreeWalk link n (some p)).1 = some q → ∃ q', link p = some q' := by
    intro link n hn hwalk
    obtain ⟨n, rfl⟩ := Nat.exists_eq_succ_of_ne_zero hn
    rw [playTreeWalk] at hwalk
    cases hp : link p with
    | none =>
      rw [hp] at hwalk
      cases n <;> cases hwalk
    | some q' => exact ⟨q', rfl⟩
  unfold playTreeIterAim at h
  split at h
  case isTrue hpos =>
    obtain ⟨hq, hd'⟩ := Prod.mk.inj h
    rw [if_neg (Decidable.not_not.mpr (playTreeWalk_some hq))] at hd'
    rw [← hd', playTreeIterAim_one]
    exact hlink (by omega) hq
  case isFalse hpos =>
    split at h
    case isTrue hneg =>
      obtain ⟨hq, hd'⟩ := Prod.mk.inj h
      rw [if_neg (Decidable.not_not.mpr (playTreeWalk_some hq))] at hd'
      rw [← hd', playTreeIterAim_neg_one]
      exact hlink (by omega) hq
    case isFalse => exact absurd (by omega) hd

theorem playTreeIterAim_again (hd : d ≠ 0) (h : playTreeIterAim heap p d = (some q, d')) :
    (playTreeIterAim heap p d').2 = d' := by
  obtain rfl | rfl := playTreeIterAim_found hd h
  case inl => rw [playTreeIterAim_one]
  case inr => rw [playTreeIterAim_neg_one]

theorem ChildValid.valid (h : ChildValid heap p) : PlayTreeValid heap p := by
  obtain ⟨N, hN⟩ := h
  refine ⟨N + 1, fun n hn => ?_⟩
  obtain ⟨n, rfl⟩ : ∃ m, n = m + 1 := ⟨n - 1, by omega⟩
  have hchild := hN n (by omega)
  dsimp only at hchild ⊢
  unfold playTreeChildValid at hchild
  rw [playTreeIsValid]
  split
  case isTrue => rfl
  case isFalse =>
    cases hc : (heap p).child with
    | none =>
      rw [hc] at hchild
      cases hchild
    | some c =>
      rw [hc] at hchild
      dsimp only at hchild
      rw [playTreeIsValid] at hchild
      rw [playTreeAnyValid, hchild]
      rfl

/-! ## Where a step ends -/

/-- The iterator of an outcome. -/
def CallOutcome.iterator : CallOutcome → PlayTreeIter
  | .done _ iter => iter
  | .again iter _ => iter

theorem Visited.placed {ds bs : Forest Nat} (ho : Visited heap root f iter q ds d withNodes o)
    (h : PlacedIn heap root f iter p parent g) (hends : g.Ends (.cons q ds bs)) :
    ∃ p' parent' g', PlacedIn heap root f o.iterator p' parent' g' := by
  cases ho with
  | node => exact ⟨q, parent, g, ⟨h.same, h.root_eq, h.level⟩, rfl, hends.tops⟩
  | down _ hplaced => exact ⟨_, _, _, hplaced⟩
  | error => exact ⟨p, parent, g, h⟩
  | missed => exact ⟨p, parent, g, h⟩
  | entry _ _ hsame hroot htree hstack =>
    have hlevel := h.level
    rw [← hstack] at hlevel
    exact ⟨q, parent, g, ⟨hsame, hroot.trans h.root_eq, hlevel⟩, htree, hends.tops⟩

theorem Called.placed (ho : Called rand heap root f iter p parent g d withNodes o)
    (h : PlacedIn heap root f iter p parent g) :
    ∃ p' parent' g', PlacedIn heap root f o.iterator p' parent' g' := by
  cases ho with
  | found _ _ hends hkeeps hvisited => exact hvisited.placed (hkeeps.placed h) hends
  | loop _ _ _ hplaced => exact ⟨_, _, _, hplaced⟩
  | finish _ _ _ _ hplaced => exact ⟨_, _, _, hplaced⟩
  | up _ _ _ _ hplaced => exact ⟨_, _, _, hplaced⟩
  | drawn _ _ hends hkeeps hvisited => exact hvisited.placed (hkeeps.placed h) hends
  | drawnOut _ _ hplaced => exact ⟨_, _, _, hplaced⟩
  | afresh _ _ hplaced => exact ⟨_, _, _, hplaced⟩

/-- What holds of every outcome, if it does of those of the calls that follow, holds of what a
step returns. -/
theorem PlacedIn.induct (hl : (playTreeLinks heap).Linked none none (.cons root below .nil))
    {P : PlayTreeIter → Int → IterRet × PlayTreeIter → Prop}
    (hP : ∀ {iter p parent g d o}, PlacedIn heap root (.cons root below .nil) iter p parent g →
      Called rand heap root (.cons root below .nil) iter p parent g d withNodes o →
      ∀ {n r}, (∀ {iter d p parent g}, PlacedIn heap root (.cons root below .nil) iter p parent g →
        playTreeIterStep rand withNodes n iter d = some r → P iter d r) →
      o.run (playTreeIterStep rand withNodes n) = some r → P iter d r) :
    ∀ {n iter p parent g d r}, PlacedIn heap root (.cons root below .nil) iter p parent g →
      playTreeIterStep rand withNodes n iter d = some r → P iter d r := by
  intro n
  induction n with
  | zero =>
    intro iter p parent g d r _ hr
    cases hr
  | succ n ih =>
    intro iter p parent g d r h hr
    obtain ⟨o, ho, hsettles⟩ := h.called rand hl d withNodes
    exact hP h ho ih (hsettles.1 n r hr)

theorem PlacedIn.step_placed (hl : (playTreeLinks heap).Linked none none (.cons root below .nil))
    {n : Nat} {r : IterRet × PlayTreeIter}
    (h : PlacedIn heap root (.cons root below .nil) iter p parent g)
    (hr : playTreeIterStep rand withNodes n iter d = some r) :
    ∃ p' parent' g', PlacedIn heap root (.cons root below .nil) r.2 p' parent' g' := by
  refine PlacedIn.induct hl (P := fun _ _ r => ∃ p' parent' g',
    PlacedIn heap root (.cons root below .nil) r.2 p' parent' g') ?_ h hr
  intro iter p parent g d o h ho n r ih hrun
  obtain ⟨p', parent', g', hplaced⟩ := ho.placed h
  cases o with
  | done ret iter' =>
    cases hrun
    exact ⟨p', parent', g', hplaced⟩
  | again iter' d' => exact ih hplaced hrun

/-! ## Steps that return -/

/-- A step by `d` returns. -/
def StepEnds (rand : Nat → Nat → Nat) (withNodes : Bool) (iter : PlayTreeIter) (d : Int) : Prop :=
  ∃ r, Returns (fun fuel => playTreeIterStep rand withNodes fuel iter d) r

/-- The siblings of a level are left for those below. -/
def StepsEndBelow (rand : Nat → Nat → Nat) (withNodes : Bool) (heap : Nat → PlayTree)
    (root : Nat) (f g : Forest Nat) : Prop :=
  ∀ {q : Nat} {ds bs : Forest Nat}, g.Ends (.cons q ds bs) →
    ∀ {iter : PlayTreeIter} {c : Nat}, PlacedIn heap root f iter c (some q) ds →
      StepEnds rand withNodes iter 0

theorem CallOutcome.ends {o : CallOutcome}
    (hsettles : Settles (fun n => playTreeIterStep rand withNodes (n + 1) iter d)
      fun n => o.run (playTreeIterStep rand withNodes n))
    (hagain : ∀ iter' d', o = .again iter' d' → StepEnds rand withNodes iter' d') :
    StepEnds rand withNodes iter d := by
  cases o with
  | done ret iter' => exact ⟨_, hsettles.returns_succ (.of_forall 0 fun _ _ => rfl)⟩
  | again iter' d' =>
    obtain ⟨r, hr⟩ := hagain iter' d' rfl
    exact ⟨r, hsettles.returns_succ hr⟩

/-- A step that has found an item ends, unless the item isn't valid. -/
theorem Visited.ends {ds bs : Forest Nat} (ho : Visited heap root f iter q ds d withNodes o)
    (hends : g.Ends (.cons q ds bs)) (hbelow : StepsEndBelow rand withNodes heap root f g)
    (hmissed : ¬PlayTreeValid heap q → d ≠ 0 → StepEnds rand withNodes iter d) :
    ∀ iter' d', o = .again iter' d' → StepEnds rand withNodes iter' d' := by
  intro iter' d' heq
  cases ho with
  | node => cases heq
  | down _ hplaced =>
    cases heq
    exact hbelow hends hplaced
  | error => cases heq
  | missed hinvalid hd =>
    cases heq
    exact hmissed hinvalid hd
  | entry => cases heq

/-- A step in random order ends once none of the siblings is played, with the draw `j` at the
latest. -/
theorem PlacedIn.unplayed_ends {iter : PlayTreeIter}
    (hl : (playTreeLinks heap).Linked none none (.cons root below .nil))
    (hbelow : StepsEndBelow rand withNodes heap root (.cons root below .nil) g)
    (h : PlacedIn heap root (.cons root below .nil) iter p parent g)
    (hrandom : playTreeRandom heap p = true)
    (hplayed : ∀ q ∈ g.tops, (iter.heap q).rndPlayed = false) {j : Nat} (hj : iter.draws ≤ j)
    (hlt : rand j g.tops.length < g.tops.length) : StepEnds rand withNodes iter 0 := by
  obtain ⟨o, ho, hsettles⟩ := h.called rand hl 0 withNodes
  refine CallOutcome.ends hsettles ?_
  cases ho with
  | found hnot | loop hnot | finish hnot | up hnot => cases hrandom.symm.trans hnot
  | drawn _ _ hends _ hvisited => exact hvisited.ends hends hbelow fun _ hd => absurd rfl hd
  | drawnOut => exact nofun
  | @afresh iter' _ hnone hplaced hplayed' hdraws =>
    have hne : j ≠ iter.draws := by
      rintro rfl
      obtain ⟨q, hq⟩ := drawnOf_unplayed hplayed hlt
      cases hq.symm.trans hnone
    intro iter'' d' heq
    cases heq
    exact hplaced.unplayed_ends hl hbelow hrandom hplayed' (by omega) hlt
termination_by j - iter.draws

/-- A step in random order ends, if it comes to a draw of an item that is valid. -/
theorem PlacedIn.random_ends {iter : PlayTreeIter}
    (hl : (playTreeLinks heap).Linked none none (.cons root below .nil))
    (hrand : ∀ n, 0 < n → ∀ k, ∃ j, k ≤ j ∧ rand j n < n)
    (hbelow : StepsEndBelow rand withNodes heap root (.cons root below .nil) g)
    (h : PlacedIn heap root (.cons root below .nil) iter p parent g)
    (hrandom : playTreeRandom heap p = true) {j : Nat} (hj : iter.draws ≤ j)
    (hdraw : d = 0 ∨ ∀ q, drawnOf iter.heap (rand j) g.tops = some q → PlayTreeValid heap q) :
    StepEnds rand withNodes iter d := by
  obtain ⟨o, ho, hsettles⟩ := h.called rand hl d withNodes
  refine CallOutcome.ends hsettles ?_
  cases ho with
  | found hnot | loop hnot | finish hnot | up hnot => cases hrandom.symm.trans hnot
  | @drawn iter' q _ _ _ _ hq hends hkeeps hvisited =>
    refine hvisited.ends hends hbelow fun hinvalid hd => ?_
    have hdraw := hdraw.resolve_left hd
    have hne : j ≠ iter.draws := by
      rintro rfl
      exact hinvalid (hdraw q hq)
    have hdraws := hkeeps.draws_eq
    refine (hkeeps.placed h).random_ends hl hrand hbelow hrandom (j := j) (by omega) (.inr ?_)
    rw [hkeeps.heap_eq]
    exact hdraw
  | drawnOut => exact nofun
  | afresh _ _ hplaced hplayed =>
    obtain ⟨j', hj', hlt⟩ := hrand g.tops.length (List.length_pos_of_mem h.mem) _
    intro iter'' d' heq
    cases heq
    exact hplaced.unplayed_ends hl hbelow hrandom hplayed hj' hlt
termination_by j - iter.draws

/-- A step without a distance ends. -/
theorem PlacedIn.zero_ends {g : Forest Nat} {iter : PlayTreeIter} {p : Nat} {parent : Option Nat}
    (hl : (playTreeLinks heap).Linked none none (.cons root below .nil))
    (hrand : ∀ n, 0 < n → ∀ k, ∃ j, k ≤ j ∧ rand j n < n)
    (h : PlacedIn heap root (.cons root below .nil) iter p parent g) :
    StepEnds rand withNodes iter 0 := by
  have hbelow : StepsEndBelow rand withNodes heap root (.cons root below .nil) g :=
    fun {q ds bs} hends {iter c} h => by
      have hlt := hends.below_lt
      exact h.zero_ends hl hrand
  cases hrandom : playTreeRandom heap p with
  | true => exact h.random_ends hl hrand hbelow hrandom (Nat.le_refl _) (.inl rfl)
  | false =>
    obtain ⟨o, ho, hsettles⟩ := h.called rand hl 0 withNodes
    refine CallOutcome.ends hsettles ?_
    cases ho with
    | found _ haim hends _ hvisited =>
      have hd' := (Prod.mk.inj haim).2
      exact hvisited.ends hends hbelow fun _ hd => absurd hd'.symm hd
    | loop _ haim | finish _ haim | up _ haim => cases (Prod.mk.inj haim).1
    | drawn hnot | drawnOut hnot | afresh hnot => cases hrandom.symm.trans hnot
termination_by g.nodes.length

/-- `AimsFrom`, read on the tree that the iterator has started with. -/
theorem AimsFrom.elim {heap' : Nat → PlayTree} {draws : Nat} {up : Nat → Int → Prop} {loop : Int}
    (hsame : SameTree heap heap') (hd : d ≠ 0) (h : AimsFrom rand heap' draws up loop p d) :
    (playTreeRandom heap p = true →
      ∃ j, draws ≤ j ∧ ∀ q, RndDraws heap' (rand j) p q → PlayTreeValid heap q) ∧
    (playTreeRandom heap p = false → ∀ pt d', playTreeIterAim heap p d = (pt, d') →
      match pt with
      | some q => PlayTreeValid heap q ∨
          ∀ q', (playTreeIterAim heap p d').1 = some q' → PlayTreeValid heap q'
      | none => LoopsBack heap' loop p d' ∨
          ∀ parent, (heap p).parent = some parent → up parent d') := by
  simp only [AimsFrom, if_neg hd, hsame.random, hsame.aim, hsame.valid, hsame.parent] at h
  constructor
  case left =>
    intro hrandom
    rwa [if_pos hrandom] at h
  case right =>
    intro hrandom pt d' haim
    rw [hrandom, haim] at h
    cases pt <;> exact h

theorem RndDraws.iff_drawnOf (hl : (playTreeLinks heap).Linked none none (.cons root below .nil))
    (h : PlacedIn heap root (.cons root below .nil) iter p parent g) (rand : Nat → Nat) :
    RndDraws iter.heap rand p q ↔ drawnOf iter.heap rand g.tops = some q := by
  obtain ⟨_, _, hends⟩ := Forest.ends_of_tops h.mem
  have hdraw := playTreeRndStep_settles (h.same.links ▸ hl.level h.level) hends rand
  refine ⟨fun hq => hdraw.eq_of_returns hq, fun hq => ?_⟩
  rw [hq] at hdraw
  exact hdraw.returns

/-- A step that finds an item that is valid ends. -/
theorem PlacedIn.found_ends (hl : (playTreeLinks heap).Linked none none (.cons root below .nil))
    (hrand : ∀ n, 0 < n → ∀ k, ∃ j, k ≤ j ∧ rand j n < n)
    (h : PlacedIn heap root (.cons root below .nil) iter p parent g)
    (hrandom : playTreeRandom heap p = false) (haim : playTreeIterAim heap p d = (some q, d'))
    (hq : PlayTreeValid heap q) : StepEnds rand withNodes iter d := by
  obtain ⟨o, ho, hsettles⟩ := h.called rand hl d withNodes
  refine CallOutcome.ends hsettles ?_
  cases ho with
  | found _ haim' hends _ hvisited =>
    cases haim.symm.trans haim'
    exact hvisited.ends hends (fun _ _ _ h => h.zero_ends hl hrand) fun hnot => absurd hq hnot
  | loop _ haim' | finish _ haim' | up _ haim' => cases haim.symm.trans haim'
  | drawn hnot | drawnOut hnot | afresh hnot => cases hrandom.symm.trans hnot

/-- A step that stays clear of items that aren't valid ends. -/
theorem PlacedIn.ends {g : Forest Nat} {iter : PlayTreeIter} {p : Nat} {parent : Option Nat}
    {d : Int} (hl : (playTreeLinks heap).Linked none none (.cons root below .nil))
    (hrand : ∀ n, 0 < n → ∀ k, ∃ j, k ≤ j ∧ rand j n < n)
    (h : PlacedIn heap root (.cons root below .nil) iter p parent g)
    (haims : AimsValid rand iter.heap iter.draws iter.statusStack iter.loop p d) :
    StepEnds rand withNodes iter d := by
  by_cases hd : d = 0
  case pos =>
    rw [hd]
    exact h.zero_ends hl hrand
  case neg =>
    rw [AimsValid.eq_from] at haims
    obtain ⟨hatRandom, hinOrder⟩ := haims.elim h.same hd
    cases hrandom : playTreeRandom heap p with
    | true =>
      obtain ⟨j, hj, hdraw⟩ := hatRandom hrandom
      refine h.random_ends hl hrand (fun _ _ _ h => h.zero_ends hl hrand) hrandom hj
        (.inr fun q hq => hdraw q ?_)
      exact (RndDraws.iff_drawnOf hl h _).mpr hq
    | false =>
      have haims := hinOrder hrandom
      obtain ⟨o, ho, hsettles⟩ := h.called rand hl d withNodes
      refine CallOutcome.ends hsettles ?_
      cases ho with
      | @found iter' q _ _ d' _ _ haim hends hkeeps hvisited =>
        refine hvisited.ends hends (fun _ _ _ h => h.zero_ends hl hrand) fun hinvalid _ => ?_
        have hvalid := (haims _ _ haim).resolve_left hinvalid
        obtain ⟨q', hq'⟩ := playTreeIterAim_next hd haim
        exact (hkeeps.placed h).found_ends hl hrand hrandom (Prod.ext hq' rfl) (hvalid q' hq')
      | loop _ _ _ hplaced =>
        intro iter' d' heq
        cases heq
        exact hplaced.zero_ends hl hrand
      | finish => exact nofun
      | up _ haim hloop hparent hplaced hheap hdraws hstack =>
        intro iter' d' heq
        cases heq
        refine hplaced.ends hl hrand ?_
        have hpar := tops_parent (hl.level h.level) h.mem
        have hvalid := (haims _ _ haim).resolve_left hloop _ (hpar.trans hparent)
        rw [hstack] at hvalid
        rw [hheap, hdraws]
        exact hvalid
      | drawn hnot | drawnOut hnot | afresh hnot => cases hrandom.symm.trans hnot
termination_by iter.statusStack.length
decreasing_by
  rw [hstack, List.length_cons]
  exact Nat.lt_succ_self _

/-- A step that comes to an item which isn't valid never returns. -/
theorem PlacedIn.never (hl : (playTreeLinks heap).Linked none none (.cons root below .nil)) :
    ∀ {n : Nat} {g : Forest Nat} {iter : PlayTreeIter} {p : Nat} {parent : Option Nat} {d : Int},
    PlacedIn heap root (.cons root below .nil) iter p parent g →
    ¬AimsValid rand iter.heap iter.draws iter.statusStack iter.loop p d →
    playTreeIterStep rand withNodes n iter d = none
  | 0, _, _, _, _, _, _, _ => rfl
  | n + 1, g, iter, p, parent, d, h, haims => by
    have hd : d ≠ 0 := by
      rintro rfl
      rw [AimsValid.eq_from, AimsFrom, if_pos rfl] at haims
      exact haims trivial
    have hfrom := haims
    rw [AimsValid.eq_from] at hfrom
    simp only [AimsFrom, if_neg hd, h.same.random, h.same.aim, h.same.valid, h.same.parent] at hfrom
    obtain ⟨o, ho, hsettles⟩ := h.called rand hl d withNodes
    refine Settles.none_succ (f := fun n => playTreeIterStep rand withNodes n iter d) hsettles ?_
    cases ho with
    | @found iter' q _ _ d' _ hrandom haim hends hkeeps hvisited =>
      rw [hrandom, haim] at hfrom
      obtain ⟨hinvalid, hnext⟩ := not_or.mp hfrom
      obtain ⟨q', hq'⟩ := Classical.not_forall.mp hnext
      obtain ⟨hq', hinvalid'⟩ := Classical.not_imp.mp hq'
      have hd' : d' ≠ 0 := fun h0 => hd ((playTreeIterAim_rest heap p d).mp (by rw [haim, h0]))
      have hagain : playTreeIterAim heap p d' = (some q', d') :=
        Prod.ext hq' (playTreeIterAim_again hd haim)
      cases hvisited with
      | node hchild | down hchild => exact absurd hchild.valid hinvalid
      | error _ h0 => exact absurd h0 hd'
      | entry hvalid => exact absurd hvalid hinvalid
      | missed =>
        refine (hkeeps.placed h).never hl ?_
        rw [AimsValid.eq_from, hkeeps.heap_eq, hkeeps.draws_eq]
        simp only [AimsFrom, if_neg hd', h.same.random, h.same.aim, h.same.valid, hrandom, hagain]
        rintro (hvalid | hvalid)
        · exact hinvalid' hvalid
        · exact hinvalid' (hvalid q' rfl)
    | loop hrandom haim hloop =>
      rw [hrandom, haim] at hfrom
      exact absurd (.inl hloop) hfrom
    | finish hrandom haim hloop hparent =>
      rw [hrandom, haim] at hfrom
      refine absurd (.inr fun q hq => ?_) hfrom
      have hnone := (tops_parent (hl.level h.level) h.mem).trans hparent
      cases hnone.symm.trans hq
    | up hrandom haim hloop hparent hplaced hheap hdraws hstack =>
      rw [hrandom, haim] at hfrom
      refine hplaced.never hl fun hvalid => ?_
      rw [hheap, hdraws] at hvalid
      refine hfrom (.inr fun q hq => ?_)
      have hpar := (tops_parent (hl.level h.level) h.mem).trans hparent
      cases hpar.symm.trans hq
      rw [hstack]
      exact hvalid
    | drawn hrandom hq hends hkeeps hvisited =>
      rw [hrandom, if_pos rfl] at hfrom
      have hinvalid : ¬PlayTreeValid heap _ := fun hvalid =>
        hfrom ⟨iter.draws, Nat.le_refl _, fun q' hq' => by
          rw [RndDraws.iff_drawnOf hl h, hq] at hq'
          cases hq'
          exact hvalid⟩
      cases hvisited with
      | node hchild | down hchild => exact absurd hchild.valid hinvalid
      | error _ h0 => exact absurd h0 hd
      | entry hvalid => exact absurd hvalid hinvalid
      | missed =>
        refine (hkeeps.placed h).never hl ?_
        rw [AimsValid.eq_from, hkeeps.heap_eq, hkeeps.draws_eq]
        simp only [AimsFrom, if_neg hd, h.same.random, h.same.valid, hrandom]
        rintro ⟨j, hj, hdraw⟩
        exact hfrom ⟨j, by omega, hdraw⟩
    | drawnOut hrandom hnone | afresh hrandom hnone =>
      rw [hrandom, if_pos rfl] at hfrom
      refine absurd ⟨iter.draws, Nat.le_refl _, fun q hq => ?_⟩ hfrom
      rw [RndDraws.iff_drawnOf hl h, hnone] at hq
      cases hq

end MPlayer
