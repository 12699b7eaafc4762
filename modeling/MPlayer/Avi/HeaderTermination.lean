import Mathlib.Tactic.SplitIfs
import MPlayer.Avi.Header

/-!
# Reading the header of an AVI file ends

A turn of `read_avi_header` reads at least the 4 bytes of an id, but may go back to the end of the
list it is in.  It goes there once only, since the list is left with that.  So the position, or the
end of the list if this comes first, goes up with every turn, or stays and the list is left
(`Parser.left`).

The loop that builds the index goes up by at least the header of a chunk.
-/

namespace MPlayer

open Lib

/-! ## The reader -/

namespace Reader

@[simp] theorem skip_zero (r : Reader) : r.skip 0 = r := by
  simp [skip, read]

theorem skip_pos (r : Reader) (n : Nat) : (r.skip n).pos = r.pos + min n r.rest.length := rfl

theorem skip_rest (r : Reader) (n : Nat) : (r.skip n).rest = r.rest.drop n := rfl

theorem le_of_skip_eof {r : Reader} {n : Nat} (h : (r.skip n).eof = false) :
    n ≤ r.rest.length ∧ r.eof = false := by
  have h : (r.eof || decide (r.rest.length < n)) = false := h
  rw [Bool.or_eq_false_iff, decide_eq_false_iff_not, Nat.not_lt] at h
  exact h.symm

end Reader

namespace AviHeader

open AviMuxer (fourcc le32)

variable {o : Opened} {h : History}

/-- The reader stands in the file. -/
def Within (o : Opened) (r : Reader) : Prop := r.rest = o.file.drop r.pos

theorem Within.skip {r : Reader} (hr : Within o r) (n : Nat) : Within o (r.skip n) := by
  unfold Within at *
  rw [Reader.skip_rest, Reader.skip_pos, ← List.drop_drop, ← hr]
  rcases Nat.le_total n r.rest.length with hle | hle
  · rw [Nat.min_eq_left hle]
  · rw [Nat.min_eq_right hle, List.drop_length, List.drop_of_length_le hle]

theorem Within.seek (o : Opened) (r : Reader) (pos : Nat) : Within o (o.seek r pos) := rfl

variable {r : Reader} {len type id size2 : UInt32} {s : State}

theorem Within.length (hr : Within o r) : r.rest.length = o.file.length - r.pos := by
  rw [hr, List.length_drop]

/-! ## What a chunk does -/

/-- What every chunk leaves as it is, but for the place, and the list it may leave. -/
structure Onward (p q : Parser) : Prop where
  skips : ∃ n, q.r = p.r.skip n
  listEnd : q.listEnd = p.listEnd ∨ q.listEnd = 0
  written : p.written <+: q.written

/-- A chunk that is not about one of the streams touches no stream header. -/
structure Passes (p q : Parser) : Prop where
  onward : Onward p q
  streams : q.streams = p.streams
  shVideo : q.shVideo = p.shVideo
  shAudio : q.shAudio = p.shAudio
  written : q.written = p.written

theorem Passes.skip (p : Parser) (n : Nat) : Passes p { p with r := p.r.skip n } :=
  ⟨⟨⟨n, rfl⟩, .inl rfl, List.prefix_refl _⟩, rfl, rfl, rfl, rfl⟩

theorem Passes.refl (p : Parser) : Passes p p :=
  ⟨⟨⟨0, p.r.skip_zero.symm⟩, .inl rfl, List.prefix_refl _⟩, rfl, rfl, rfl, rfl⟩

namespace Parser

variable {p q : Parser} {last : Last} {chunksize : UInt32}

/-- How far the end of the file is, from the position or the end of the list. -/
def left (o : Opened) (p : Parser) : Nat :=
  if p.listEnd = 0 then 2 * (o.file.length - p.r.pos)
  else 2 * (o.file.length - min p.r.pos p.listEnd) + 1

/-- The two ends of a turn. -/
theorem leave_cases (o : Opened) (q : Parser) (chunksize : UInt32) :
    (0 < q.listEnd ∧ q.leave o chunksize = { q with r := o.seek q.r q.listEnd, listEnd := 0 }) ∨
      ∃ listEnd, (listEnd = q.listEnd ∧ (0 < listEnd → q.r.pos + chunksize.toNat < listEnd) ∨
          listEnd = 0) ∧
        q.leave o chunksize =
          { q with r := q.r.skip chunksize.toNat, listEnd := listEnd } := by
  simp only [leave]
  by_cases hend : q.listEnd > 0 ∧ chunksize.toNat + q.r.pos = q.listEnd
  · rw [if_pos hend, if_neg fun h => absurd h.1 (Nat.lt_irrefl 0)]
    exact .inr ⟨0, .inr rfl, rfl⟩
  · rw [if_neg hend]
    by_cases hover : q.listEnd > 0 ∧ chunksize.toNat + q.r.pos > q.listEnd
    · rw [if_pos hover]
      exact .inl ⟨hover.1, rfl⟩
    · rw [if_neg hover]
      exact .inr ⟨q.listEnd, .inl ⟨rfl, by omega⟩, rfl⟩

end Parser

end AviHeader

end MPlayer
