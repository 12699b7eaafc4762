import Mathlib.Logic.Function.Basic

/-!
# The playlist iterator

A play tree is a heap of `play_tree_t` cells linked by `parent`, `child`, `next`
and `prev`.  An iterator stands on one of them.  It keeps the loop counter of the
level it is on, and on its status stack those of the levels above.

`play_tree_iter_step`, `play_tree_iter_up_step` and `play_tree_iter_down_step`
call each other.  Here the last two, and a single call of the first one, take the first
one as an argument, and `playTreeIterStep` ties the knot.  The searches along siblings and the
recursion need not end on a heap of any shape, so they take fuel and return `none` when it runs
out.  Going up with an empty status stack, which the assertions rule out, also
gives `none`.

The options that an entry sets go to a configuration, which is kept as the log of
the calls that were made on it.  The random mode draws its numbers from `rand`:
the `k`-th draw among `count` entries is `rand k count`.
-/

namespace MPlayer

/-! ## Data -/

/-- `PLAY_TREE_ENTRY_*`. -/
inductive EntryType where
  | node | dvd | vcd | tv | file
deriving DecidableEq, Repr

/-- `play_tree_t`.  A pointer is an index of the heap, or `none` for `NULL`. -/
structure PlayTree where
  parent : Option Nat
  child : Option Nat
  next : Option Nat
  prev : Option Nat
  params : Option (List (String × Option String))
  loop : Int
  files : List String
  entryType : EntryType
  /-- `flags & PLAY_TREE_RND`. -/
  rnd : Bool
  /-- `flags & PLAY_TREE_RND_PLAYED`. -/
  rndPlayed : Bool
deriving DecidableEq, Repr

/-- `PLAY_TREE_ITER_*`, what a step returns. -/
inductive IterRet where
  | error | entry | node | finish
deriving DecidableEq, Repr

/-- `PLAY_TREE_ITER_NORMAL` and `PLAY_TREE_ITER_RND`. -/
inductive IterMode where
  | normal | rnd
deriving DecidableEq, Repr

/-- A call on the configuration. -/
inductive ConfigCall where
  | push
  | set (name : String) (value : Option String)
  | pop
deriving DecidableEq, Repr

/-- `play_tree_iter_t`, with the heap it walks on, the calls made on its
configuration (oldest first) and the number of draws made. -/
structure PlayTreeIter where
  heap : Nat → PlayTree
  root : Option Nat
  tree : Option Nat
  /-- `config != NULL`. -/
  config : Bool
  calls : List ConfigCall
  loop : Int
  file : Int
  numFiles : Nat
  entryPushed : Bool
  mode : IterMode
  /-- `status_stack`, the top first. -/
  statusStack : List Int
  draws : Nat

/-! ## The tree -/

/-- The loop of `play_tree_is_valid` over siblings. -/
def playTreeAnyValid (heap : Nat → PlayTree) : Nat → Option Nat → Option Bool
  | 0, _ => none
  | _ + 1, none => some false
  | fuel + 1, some pt =>
    (if (heap pt).entryType ≠ .node then some true
      else playTreeAnyValid heap fuel (heap pt).child).bind fun valid =>
    if valid then some true else playTreeAnyValid heap fuel (heap pt).next

/-- `play_tree_is_valid`. -/
def playTreeIsValid (heap : Nat → PlayTree) (fuel pt : Nat) : Option Bool :=
  if (heap pt).entryType ≠ .node then some true
  else playTreeAnyValid heap fuel (heap pt).child

/-- `pt->child && play_tree_is_valid(pt->child)`. -/
def playTreeChildValid (heap : Nat → PlayTree) (fuel pt : Nat) : Option Bool :=
  match (heap pt).child with
  | some child => playTreeIsValid heap fuel child
  | none => some false

/-- Follow `link` as far as it goes. -/
def playTreeFarthest (link : Nat → Option Nat) : Nat → Nat → Option Nat
  | 0, _ => none
  | fuel + 1, pt =>
    match link pt with
    | none => some pt
    | some q => playTreeFarthest link fuel q

/-- `pt` and the siblings after it. -/
def playTreeSiblings (heap : Nat → PlayTree) : Nat → Option Nat → Option (List Nat)
  | 0, _ => none
  | _ + 1, none => some []
  | fuel + 1, some pt => (playTreeSiblings heap fuel (heap pt).next).map (pt :: ·)

/-- `play_tree_unset_flag` for `PLAY_TREE_RND_PLAYED`, on siblings and everything
below them. -/
def playTreeUnsetPlayed : Nat → (Nat → PlayTree) → Option Nat → Option (Nat → PlayTree)
  | 0, _, _ => none
  | _ + 1, heap, none => some heap
  | fuel + 1, heap, some pt => do
      let heap := Function.update heap pt { heap pt with rndPlayed := false }
      let heap ← playTreeUnsetPlayed fuel heap (heap pt).child
      playTreeUnsetPlayed fuel heap (heap pt).next

/-- `play_tree_rnd_step`: one of the siblings not played yet, drawn by `rand`. -/
def playTreeRndStep (heap : Nat → PlayTree) (rand : Nat → Nat) (fuel pt : Nat) :
    Option (Option Nat) := do
  let head ← playTreeFarthest (fun p => (heap p).prev) fuel pt
  let siblings ← playTreeSiblings heap fuel (some head)
  let free := siblings.filter fun p => !(heap p).rndPlayed
  if free.length = 0 then some none else some free[rand free.length]?

/-! ## Stepping -/

/-- `play_tree_iter_push_params`, on the item `pt`. -/
def playTreeIterPushParams (iter : PlayTreeIter) (pt : Nat) : PlayTreeIter :=
  let iter := { iter with calls := iter.calls ++ [ConfigCall.push] }
  match (iter.heap pt).params with
  | none => iter
  | some params =>
    { iter with
      calls := iter.calls ++ params.map fun p => ConfigCall.set p.1 p.2
      entryPushed := iter.entryPushed || (iter.heap pt).child.isNone }

/-- The pop of an entry's options at the start of a step. -/
def playTreeIterPopEntry (iter : PlayTreeIter) : PlayTreeIter :=
  if iter.config ∧ iter.entryPushed then
    { iter with entryPushed := false, calls := iter.calls ++ [ConfigCall.pop] }
  else iter

/-- The start of a step: the last entry's options are popped, and the mode is the
one of the current level. -/
def playTreeIterReady (iter : PlayTreeIter) (tree : Nat) : PlayTreeIter :=
  let iter := playTreeIterPopEntry iter
  { iter with
    mode :=
      match (iter.heap tree).parent with
      | some parent => if (iter.heap parent).rnd then .rnd else .normal
      | none => .normal
    file := -1 }

/-- Follow `link` `n` times while there is an item: the item and the number of
times left. -/
def playTreeWalk (link : Nat → Option Nat) : Nat → Option Nat → Option Nat × Nat
  | n + 1, some pt => playTreeWalk link n (link pt)
  | n, pt => (pt, n)

/-- The item that a step by `d` aims at, and the rest of `d`. -/
def playTreeIterAim (heap : Nat → PlayTree) (tree : Nat) (d : Int) : Option Nat × Int :=
  if 0 < d then
    let r := playTreeWalk (fun p => (heap p).next) d.toNat (some tree)
    (r.1, if r.2 ≠ 0 then r.2 else 1)
  else if d < 0 then
    let r := playTreeWalk (fun p => (heap p).prev) (-d).toNat (some tree)
    (r.1, if r.2 ≠ 0 then -r.2 else -1)
  else (some tree, d)

/-- The item that a step aims at in its mode, and the rest of `d`. -/
def playTreeIterFind (rand : Nat → Nat → Nat) (fuel : Nat) (iter : PlayTreeIter) (tree : Nat)
    (d : Int) : Option (Option Nat × Int) :=
  match iter.mode with
  | .rnd => (playTreeRndStep iter.heap (rand iter.draws) fuel tree).map fun pt => (pt, d)
  | .normal => some (playTreeIterAim iter.heap tree d)

/-- The child that a step by `d` enters a node at, where `child` is the first. -/
def playTreeIterEnter (heap : Nat → PlayTree) (fuel child : Nat) (d : Int) : Option Nat :=
  if 0 ≤ d then some child else playTreeFarthest (fun p => (heap p).next) fuel child

section Knot

-- The recursive call of `play_tree_iter_step`.
variable (step : PlayTreeIter → Int → Option (IterRet × PlayTreeIter))

/-- `play_tree_iter_up_step`. -/
def playTreeIterUpStep (iter : PlayTreeIter) (tree : Nat) (d : Int) :
    Option (IterRet × PlayTreeIter) :=
  let iter := { iter with file := -1 }
  if (iter.heap tree).parent = iter.root.bind fun root => (iter.heap root).parent then
    some (.finish, iter)
  else
    match (iter.heap tree).parent, iter.statusStack with
    | some parent, loop :: statusStack =>
      let iter := { iter with statusStack := statusStack, loop := loop, tree := some parent }
      let iter :=
        if iter.config then
          { iter with
            calls := iter.calls ++ [ConfigCall.pop]
            heap :=
              if iter.mode = .rnd then
                Function.update iter.heap parent { iter.heap parent with rndPlayed := true }
              else iter.heap }
        else iter
      step iter d
    | _, _ => none

/-- `play_tree_iter_down_step`, into the children of `tree`, of which `child` is the
first. -/
def playTreeIterDownStep (fuel : Nat) (iter : PlayTreeIter) (tree child : Nat) (d : Int) :
    Option (IterRet × PlayTreeIter) := do
  let iter := { iter with file := -1 }
  let iter := if iter.config then playTreeIterPushParams iter tree else iter
  let iter :=
    { iter with statusStack := iter.loop :: iter.statusStack, loop := (iter.heap tree).loop - 1 }
  let pt ← playTreeIterEnter iter.heap fuel child d
  step { iter with tree := some pt } 0

/-- A step that found no further item at its level: loop, or go up. -/
def playTreeIterNoNext (fuel : Nat) (iter : PlayTreeIter) (root tree : Nat) (d : Int) :
    Option (IterRet × PlayTreeIter) :=
  if iter.mode = .rnd then
    if (iter.heap root).loop = 0 then some (.finish, iter)
    else do
      let heap ← playTreeUnsetPlayed fuel
        (Function.update iter.heap root { iter.heap root with rndPlayed := false })
        (iter.heap root).child
      let heap :=
        if 0 < (heap root).loop then
          Function.update heap root { heap root with loop := (heap root).loop - 1 }
        else heap
      step { iter with heap := heap } 0
  else
    let parentLoop := (iter.heap tree).parent.map fun parent => (iter.heap parent).loop
    match parentLoop with
    | some parentLoop =>
      if parentLoop ≠ 0 ∧
          ((0 < d ∧ iter.loop ≠ 0) ∨ (d < 0 ∧ (iter.loop < 0 ∨ iter.loop < parentLoop))) then
        if 0 < d then do
          let pt ← playTreeFarthest (fun p => (iter.heap p).prev) fuel tree
          step { iter with
            tree := some pt
            loop := if 0 < iter.loop then iter.loop - 1 else iter.loop } 0
        else do
          let pt ← playTreeFarthest (fun p => (iter.heap p).next) fuel tree
          step { iter with
            tree := some pt
            loop :=
              if 0 ≤ iter.loop ∧ iter.loop < parentLoop then iter.loop + 1 else iter.loop } 0
      else playTreeIterUpStep step iter tree d
    | none => playTreeIterUpStep step iter tree d

/-- A step that found the item `pt`. -/
def playTreeIterVisit (fuel : Nat) (iter : PlayTreeIter) (pt : Nat) (d : Int) (withNodes : Bool) :
    Option (IterRet × PlayTreeIter) := do
  let childValid ← playTreeChildValid iter.heap fuel pt
  match (iter.heap pt).child, childValid with
  | some child, true =>
    let iter := { iter with tree := some pt }
    if withNodes then some (.node, iter) else playTreeIterDownStep step fuel iter pt child d
  | _, _ => do
      let valid ← playTreeIsValid iter.heap fuel pt
      if !valid then
        if d = 0 then some (.error, iter) else step iter d
      else
        let iter := { iter with tree := some pt, numFiles := (iter.heap pt).files.length }
        let iter :=
          if iter.config then
            let iter := { playTreeIterPushParams iter pt with entryPushed := true }
            if iter.mode = .rnd then
              { iter with
                heap := Function.update iter.heap pt { iter.heap pt with rndPlayed := true } }
            else iter
          else iter
        some (.entry, iter)

/-- One call of `play_tree_iter_step`. -/
def playTreeIterCall (rand : Nat → Nat → Nat) (withNodes : Bool) (fuel : Nat)
    (iter : PlayTreeIter) (d : Int) : Option (IterRet × PlayTreeIter) :=
  match iter.root, iter.tree with
  | none, _ => some (.entry, iter)
  | some root, none => step { iter with tree := some root } 0
  | some root, some tree => do
      let iter := playTreeIterReady iter tree
      let aim ← playTreeIterFind rand fuel iter tree d
      let iter := if iter.mode = .rnd then { iter with draws := iter.draws + 1 } else iter
      match aim.1 with
      | none => playTreeIterNoNext step fuel iter root tree aim.2
      | some pt => playTreeIterVisit step fuel iter pt aim.2 withNodes

end Knot

/-- `play_tree_iter_step`. -/
def playTreeIterStep (rand : Nat → Nat → Nat) (withNodes : Bool) :
    Nat → PlayTreeIter → Int → Option (IterRet × PlayTreeIter)
  | 0, _, _ => none
  | fuel + 1, iter, d =>
    playTreeIterCall (playTreeIterStep rand withNodes fuel) rand withNodes fuel iter d

/-- `play_tree_iter_new`, on a tree that is valid. -/
def playTreeIterNew (heap : Nat → PlayTree) (pt : Nat) (config : Bool) : PlayTreeIter :=
  { heap := heap
    root := some pt
    tree := none
    config := config
    calls := []
    loop :=
      match (heap pt).parent with
      | some parent => (heap parent).loop
      | none => 0
    file := 0
    numFiles := 0
    entryPushed := false
    mode := .normal
    statusStack := []
    draws := 0 }

end MPlayer
