import Mathlib.Algebra.Ring.Nat
import Mathlib.Data.Fin.Basic

/-!
# Literals of small finite types

A literal of `Fin n` needs `n` to be nonzero.  The sizes in use are named here once.
-/

namespace Lib

instance neZero_two : NeZero 2 := ⟨Nat.succ_ne_zero 1⟩

instance neZero_eight : NeZero 8 := ⟨Nat.succ_ne_zero 7⟩

instance neZero_sixteen : NeZero 16 := ⟨Nat.succ_ne_zero 15⟩

end Lib
