import MPlayer.Lib.Fuel
import MPlayer.Lib.Forest
import MPlayer.PlayTree.Basic

/-!
# Single steps of the playlist iterator

On a tree whose nodes are valid and without the random flag (`Playable`), a step
either stops at an entry or comes down to another step (`Defers`).  `Stands`
describes the iterator between two steps, and `Ready` inside one.  Both say what
calls the configuration has seen once the pending entry is popped.

There is one lemma for each way a step can go: onto an entry, down into a node,
back to the first sibling, or up.
-/

namespace MPlayer

open Lib

variable {heap : Nat → PlayTree}

/-- The pointers of the cells of a heap. -/
def playTreeLinks (heap : Nat → PlayTree) : Links Nat where
  parent := fun p => (heap p).parent
  child := fun p => (heap p).child
  next := fun p => (heap p).next
  prev := fun p => (heap p).prev

/-- Every node is valid, plays in order and loops finitely often. -/
def Playable (heap : Nat → PlayTree) : Forest Nat → Prop
  | .nil => True
  | .cons p below beside =>
    ((heap p).rnd = false ∧ 0 ≤ (heap p).loop ∧ (below.head? = none → (heap p).entryType ≠ .node)) ∧
    Playable heap below ∧ Playable heap beside

/-! ## Searches -/

theorem playTreeFarthest_of_chain {link : Nat → Option Nat} {p q : Nat} (h : Chain link p q) :
    ∃ N, ∀ n, N ≤ n → playTreeFarthest link n p = some q := by
  induction h with
  | stop hp =>
    refine ⟨1, fun n hn => ?_⟩
    obtain ⟨n, rfl⟩ : ∃ m, n = m + 1 := ⟨n - 1, by omega⟩
    simp only [playTreeFarthest, hp]
  | step hp _ ih =>
    obtain ⟨N, hN⟩ := ih
    refine ⟨N + 1, fun n hn => ?_⟩
    obtain ⟨n, rfl⟩ : ∃ m, n = m + 1 := ⟨n - 1, by omega⟩
    simp only [playTreeFarthest, hp]
    exact hN n (by omega)

/-- Playable nodes are valid. -/
theorem Playable.valid : ∀ {parent prev : Option Nat} {p : Nat} {below beside : Forest Nat},
    (playTreeLinks heap).Linked parent prev (.cons p below beside) →
      Playable heap (.cons p below beside) →
      ∃ N, ∀ n, N ≤ n → playTreeIsValid heap n p = some true
  | _, _, p, .nil, _, _, hp => ⟨0, fun _ _ => by
    rw [playTreeIsValid, if_pos (hp.1.2.2 rfl)]⟩
  | _, _, p, .cons q below beside, _, hl, hp => by
    obtain ⟨N, hN⟩ := Playable.valid hl.2.1 hp.2.1
    refine ⟨N + 1, fun n hn => ?_⟩
    obtain ⟨n, rfl⟩ : ∃ m, n = m + 1 := ⟨n - 1, by omega⟩
    by_cases hnode : (heap p).entryType ≠ .node
    · rw [playTreeIsValid, if_pos hnode]
    · have hchild : (heap p).child = some q := hl.1.2.2.1
      have hq := hN n (by omega)
      rw [playTreeIsValid] at hq
      rw [playTreeIsValid, if_neg hnode, hchild, playTreeAnyValid, hq]
      rfl

/-! ## The calls on the configuration -/

/-- The options of an item. -/
def paramCalls (heap : Nat → PlayTree) (p : Nat) : List ConfigCall :=
  ((heap p).params.getD []).map fun param => .set param.1 param.2

theorem playTreeIterPushParams_eq (iter : PlayTreeIter) (p : Nat) :
    playTreeIterPushParams iter p = { iter with
      calls := iter.calls ++ ConfigCall.push :: paramCalls iter.heap p
      entryPushed := iter.entryPushed ||
        ((iter.heap p).params.isSome && (iter.heap p).child.isNone) } := by
  unfold playTreeIterPushParams paramCalls
  cases hparams : (iter.heap p).params with
  | none => simp [hparams]
  | some params => simp [hparams]

/-- The calls when the iterator comes to an item. -/
def openCalls (heap : Nat → PlayTree) (config : Bool) (p : Nat) : List ConfigCall :=
  if config then ConfigCall.push :: paramCalls heap p else []

/-- The call when the iterator leaves an item. -/
def closeCalls (config : Bool) : List ConfigCall := if config then [ConfigCall.pop] else []

/-! ## The iterator between steps -/

/-- The iterator stands at `p`, and `calls` have been made once its entry is popped. -/
structure Stands (heap : Nat → PlayTree) (root : Nat) (config : Bool) (iter : PlayTreeIter)
    (p : Nat) (stack : List Int) (loop : Int) (calls : List ConfigCall) : Prop where
  heap_eq : iter.heap = heap
  root_eq : iter.root = some root
  config_eq : iter.config = config
  tree_eq : iter.tree = some p
  stack_eq : iter.statusStack = stack
  loop_eq : iter.loop = loop
  calls_eq : (playTreeIterPopEntry iter).calls = calls

/-- The iterator inside a step, in the normal mode and with no entry to pop. -/
structure Ready (heap : Nat → PlayTree) (root : Nat) (config : Bool) (iter : PlayTreeIter)
    (stack : List Int) (loop : Int) (calls : List ConfigCall) : Prop where
  heap_eq : iter.heap = heap
  root_eq : iter.root = some root
  config_eq : iter.config = config
  stack_eq : iter.statusStack = stack
  loop_eq : iter.loop = loop
  calls_eq : iter.calls = calls
  mode_eq : iter.mode = .normal
  popped : ¬ (iter.config = true ∧ iter.entryPushed = true)

variable {root : Nat} {config : Bool} {iter : PlayTreeIter} {p : Nat} {stack : List Int}
  {loop : Int} {calls : List ConfigCall}

/-- No parent is in the random mode, if the known one is not. -/
theorem calm_of {parent : Option Nat} (hp : parent = some p) (hrnd : (heap p).rnd = false) :
    ∀ q, parent = some q → (heap q).rnd = false := by
  intro q hq
  cases hp.symm.trans hq
  exact hrnd

theorem calm_of_none (heap : Nat → PlayTree) {parent : Option Nat} (hp : parent = none) :
    ∀ q, parent = some q → (heap q).rnd = false := fun q hq => by cases hp.symm.trans hq

theorem Stands.ready (h : Stands heap root config iter p stack loop calls)
    (hparent : ∀ q, (heap p).parent = some q → (heap q).rnd = false) :
    Ready heap root config (playTreeIterReady iter p) stack loop calls := by
  have hpop : playTreeIterPopEntry iter = { iter with
      entryPushed := (playTreeIterPopEntry iter).entryPushed
      calls := (playTreeIterPopEntry iter).calls } ∧
      ¬ (iter.config = true ∧ (playTreeIterPopEntry iter).entryPushed = true) := by
    unfold playTreeIterPopEntry
    by_cases hc : iter.config = true ∧ iter.entryPushed = true
    · simp only [if_pos hc, Bool.false_eq_true, and_false, not_false_eq_true, and_self]
    · rw [if_neg hc]
      exact ⟨rfl, hc⟩
  obtain ⟨hpop, hpopped⟩ := hpop
  unfold playTreeIterReady
  rw [hpop]
  refine ⟨h.heap_eq, h.root_eq, h.config_eq, h.stack_eq, h.loop_eq, h.calls_eq, ?_, hpopped⟩
  simp only [h.heap_eq]
  cases hp : (heap p).parent with
  | none => rfl
  | some q =>
    simp only [hparent q hp]
    rfl

/-! ## What a step aims at -/

@[simp] theorem playTreeIterAim_one (p : Nat) :
    playTreeIterAim heap p 1 = ((heap p).next, 1) := rfl

@[simp] theorem playTreeIterAim_neg_one (p : Nat) :
    playTreeIterAim heap p (-1) = ((heap p).prev, -1) := rfl

variable {rand : Nat → Nat → Nat}

/-- A step goes on with the item it aims at, or without one. -/
theorem Stands.step_eq (h : Stands heap root config iter p stack loop calls)
    (hparent : ∀ q, (heap p).parent = some q → (heap q).rnd = false) (n : Nat) (d : Int) :
    playTreeIterStep rand false (n + 1) iter d =
      match (playTreeIterAim heap p d).1 with
      | none => playTreeIterNoNext (playTreeIterStep rand false n) n (playTreeIterReady iter p)
          root p (playTreeIterAim heap p d).2
      | some q => playTreeIterVisit (playTreeIterStep rand false n) n (playTreeIterReady iter p)
          q (playTreeIterAim heap p d).2 false := by
  have hready := h.ready hparent
  cases haim : (playTreeIterAim heap p d).1 with
  | none =>
    simp [playTreeIterStep, playTreeIterCall, h.root_eq, h.tree_eq, playTreeIterFind,
      hready.mode_eq, hready.heap_eq, haim]
  | some q =>
    simp [playTreeIterStep, playTreeIterCall, h.root_eq, h.tree_eq, playTreeIterFind,
      hready.mode_eq, hready.heap_eq, haim]

/-! ## Where a step goes -/

/-- The iterator stops at an entry. -/
theorem Ready.visit_entry (h : Ready heap root config iter stack loop calls)
    {parent prev : Option Nat} {q : Nat} {beside : Forest Nat}
    (hl : (playTreeLinks heap).Linked parent prev (.cons q .nil beside))
    (hp : Playable heap (.cons q .nil beside)) (d : Int) :
    ∃ iter', Stands heap root config iter' q stack loop
        (calls ++ openCalls heap config q ++ closeCalls config) ∧
      ∃ N, ∀ n, N ≤ n → ∀ step, playTreeIterVisit step n iter q d false = some (.entry, iter') := by
  obtain ⟨N, hN⟩ := Playable.valid hl hp
  have hchild : (heap q).child = none := hl.1.2.2.1
  cases config with
  | false =>
    refine ⟨{ iter with tree := some q, numFiles := (heap q).files.length }, ?_, N, ?_⟩
    · refine ⟨h.heap_eq, h.root_eq, h.config_eq, rfl, h.stack_eq, h.loop_eq, ?_⟩
      simp [playTreeIterPopEntry, h.config_eq, h.calls_eq, openCalls, closeCalls]
    · intro n hn step
      simp [playTreeIterVisit, playTreeChildValid, h.heap_eq, hchild, hN n hn, h.config_eq]
  | true =>
    refine ⟨{ playTreeIterPushParams
        { iter with tree := some q, numFiles := (heap q).files.length } q with
          entryPushed := true }, ?_, N, ?_⟩
    · rw [playTreeIterPushParams_eq]
      refine ⟨h.heap_eq, h.root_eq, h.config_eq, rfl, h.stack_eq, h.loop_eq, ?_⟩
      simp [playTreeIterPopEntry, h.config_eq, h.heap_eq, h.calls_eq, openCalls, closeCalls]
    · intro n hn step
      simp [playTreeIterVisit, playTreeChildValid, playTreeIterPushParams_eq, h.heap_eq, hchild,
        hN n hn, h.config_eq, h.mode_eq]

/-- The iterator goes down into a node, to its first child or to its last. -/
theorem Ready.visit_node (h : Ready heap root config iter stack loop calls)
    {parent prev : Option Nat} {q c : Nat} {below beside' beside : Forest Nat}
    (hl : (playTreeLinks heap).Linked parent prev (.cons q (.cons c below beside') beside))
    (hp : Playable heap (.cons q (.cons c below beside') beside)) (d : Int) :
    ∃ iter', Stands heap root config iter' (if 0 ≤ d then c else beside'.lastOr c)
        (loop :: stack) ((heap q).loop - 1) (calls ++ openCalls heap config q) ∧
      ∃ N, ∀ n, N ≤ n → ∀ step, playTreeIterVisit step n iter q d false = step iter' 0 := by
  obtain ⟨N, hN⟩ := Playable.valid hl.2.1 hp.2.1
  obtain ⟨M, hM⟩ := playTreeFarthest_of_chain hl.2.1.chain_next
  have hchild : (heap q).child = some c := hl.1.2.2.1
  obtain ⟨rfl, hroot, rfl, rfl, rfl, rfl, hmode, hpopped⟩ := h
  have henter : ∀ n, M ≤ n →
      playTreeIterEnter iter.heap n c d = some (if 0 ≤ d then c else beside'.lastOr c) := by
    intro n hn
    unfold playTreeIterEnter
    split
    · rfl
    · exact hM n hn
  obtain ⟨iter1, heq, hready⟩ : ∃ iter1, (if iter.config then
        playTreeIterPushParams { iter with tree := some q, file := -1 } q
        else { iter with tree := some q, file := -1 }) = iter1 ∧
      Ready iter.heap root iter.config iter1 iter.statusStack iter.loop
        (iter.calls ++ openCalls iter.heap iter.config q) := by
    refine ⟨_, rfl, ?_⟩
    by_cases hc : iter.config = true
    · simp only [hc, true_and] at hpopped
      rw [if_pos hc, playTreeIterPushParams_eq]
      refine ⟨rfl, hroot, rfl, rfl, rfl, ?_, hmode, ?_⟩
      · simp [openCalls, hc]
      · simp [hchild, hpopped]
    · rw [if_neg hc]
      refine ⟨rfl, hroot, rfl, rfl, rfl, ?_, hmode, hpopped⟩
      simp [openCalls, hc]
  refine ⟨{ iter1 with
      statusStack := iter1.loop :: iter1.statusStack
      loop := (iter.heap q).loop - 1
      tree := some (if 0 ≤ d then c else beside'.lastOr c) }, ?_, max N M, ?_⟩
  · refine ⟨hready.heap_eq, hready.root_eq, hready.config_eq, rfl, ?_, rfl, ?_⟩
    · simp only [hready.loop_eq, hready.stack_eq]
    · rw [playTreeIterPopEntry, if_neg hready.popped]
      exact hready.calls_eq
  · intro n hn step
    simp only [playTreeIterVisit, playTreeChildValid, hchild, hN n (by omega), Option.bind_eq_bind,
      Option.bind_some, Bool.false_eq_true, if_false, playTreeIterDownStep, heq, hready.heap_eq,
      henter n (by omega)]

/-- The iterator goes up to the parent. -/
theorem Ready.up (h : Ready heap root config iter stack loop calls) {parent : Nat} {outer : Int}
    {d : Int} (hroot : (heap root).parent = none) (hparent : (heap p).parent = some parent)
    (hstack : stack = outer :: stack.tail)
    (hloop : ¬ ((heap parent).loop ≠ 0 ∧ ((0 < d ∧ loop ≠ 0) ∨
      (d < 0 ∧ (loop < 0 ∨ loop < (heap parent).loop))))) :
    ∃ iter', Stands heap root config iter' parent stack.tail outer (calls ++ closeCalls config) ∧
      ∀ n step, playTreeIterNoNext step n iter root p d = step iter' d := by
  refine ⟨{ iter with
      file := -1
      statusStack := stack.tail
      loop := outer
      tree := some parent
      calls := calls ++ closeCalls config }, ?_, ?_⟩
  · refine ⟨h.heap_eq, h.root_eq, h.config_eq, rfl, rfl, rfl, ?_⟩
    rw [playTreeIterPopEntry, if_neg h.popped]
  · intro n step
    have hs := h.stack_eq.trans hstack
    have hloop' : ¬ ((iter.heap parent).loop ≠ 0 ∧ ((0 < d ∧ iter.loop ≠ 0) ∨
        (d < 0 ∧ (iter.loop < 0 ∨ iter.loop < (iter.heap parent).loop)))) := by
      rw [h.heap_eq, h.loop_eq]
      exact hloop
    simp only [playTreeIterNoNext, h.mode_eq, h.heap_eq, hparent, Option.map_some, reduceCtorEq,
      if_false]
    rw [h.heap_eq] at hloop'
    rw [if_neg hloop', playTreeIterUpStep]
    simp only [h.heap_eq, hparent, h.root_eq, Option.bind_some, hroot, reduceCtorEq, if_false, hs,
      h.mode_eq]
    cases config with
    | false => simp [h.config_eq, h.calls_eq, closeCalls]
    | true => simp [h.config_eq, h.calls_eq, closeCalls]

/-- The iterator starts over with the first sibling. -/
theorem Ready.again (h : Ready heap root config iter stack loop calls) {parent first : Nat}
    (hparent : (heap p).parent = some parent) (hfirst : Chain (fun q => (heap q).prev) p first)
    (hparentLoop : (heap parent).loop ≠ 0) (hloop : 0 < loop) :
    ∃ iter', Stands heap root config iter' first stack (loop - 1) calls ∧
      ∃ N, ∀ n, N ≤ n → ∀ step, playTreeIterNoNext step n iter root p 1 = step iter' 0 := by
  obtain ⟨N, hN⟩ := playTreeFarthest_of_chain hfirst
  refine ⟨{ iter with tree := some first, loop := loop - 1 }, ?_, N, ?_⟩
  · refine ⟨h.heap_eq, h.root_eq, h.config_eq, rfl, h.stack_eq, rfl, ?_⟩
    rw [playTreeIterPopEntry, if_neg h.popped]
    exact h.calls_eq
  · intro n hn step
    have hcond : (heap parent).loop ≠ 0 ∧ ((0 < (1 : Int) ∧ loop ≠ 0) ∨
        ((1 : Int) < 0 ∧ (loop < 0 ∨ loop < (heap parent).loop))) :=
      ⟨hparentLoop, Or.inl ⟨by decide, by omega⟩⟩
    simp only [playTreeIterNoNext, h.mode_eq, h.heap_eq, hparent, Option.map_some, reduceCtorEq,
      if_false, h.loop_eq]
    rw [if_pos hcond, if_pos (by decide), hN n hn]
    simp only [Option.bind_eq_bind, Option.bind_some, if_pos hloop]

/-- The iterator has come to the end of the whole tree. -/
theorem Ready.finish (h : Ready heap root config iter stack loop calls)
    (hroot : (heap root).parent = none) (hparent : (heap p).parent = none) (d : Int) :
    ∃ iter', iter'.statusStack = stack ∧ iter'.calls = calls ∧
      ∀ n step, playTreeIterNoNext step n iter root p d = some (.finish, iter') := by
  refine ⟨{ iter with file := -1 }, h.stack_eq, h.calls_eq, ?_⟩
  intro n step
  simp only [playTreeIterNoNext, h.mode_eq, h.heap_eq, hparent, Option.map_none, reduceCtorEq,
    if_false, playTreeIterUpStep, h.root_eq, Option.bind_some, hroot, if_true]

end MPlayer
