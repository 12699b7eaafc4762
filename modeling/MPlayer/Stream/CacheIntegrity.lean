import MPlayer.Stream.CacheInvariant

/-!
# The cache holds the file

Whole calls of `cache_fill`, iterations of the loop in `cache_read` and seeks, in
any order, never put a wrong byte into the reader's hands.  The backend may cut
the file into reads of any length, and a read may deliver nothing anywhere.

The steps here are coarser than those of `CacheStep`, and each of them is a run of
those (`CacheCallStep.split`).  So the invariant carries over.
-/

namespace MPlayer

open Lib

variable {β : Type} {ops : StreamOps β} {type : StreamType} {file : List UInt8} {offset : β → Nat}

/-- A call of the filler, an iteration of the reader, or a seek. -/
inductive CacheCall where
  | fill (len : Int)
  | read (size : Nat) (interrupt : Bool) (result : CacheRead)
  | seek (pos : Nat)
deriving DecidableEq, Repr

/-- A step between two states in which the filler does not wait. -/
inductive CacheCallStep (ops : StreamOps β) : CacheVars β → CacheCall → CacheVars β → Prop where
  | fill {c c' : CacheVars β} {fuel : Nat} {len : Int} :
      cacheFill ops fuel c = some (len, c') → CacheCallStep ops c (.fill len) c'
  | read {c : CacheVars β} {size : Nat} {interrupt : Bool} :
      0 < size →
      CacheCallStep ops c (.read size interrupt (cacheReadStep c size interrupt).1)
        (cacheReadStep c size interrupt).2
  | seek {c : CacheVars β} (pos : Nat) : CacheCallStep ops c (.seek pos) (cacheReposition c pos)

/-- A coarse step is a run of the fine ones. -/
theorem CacheCallStep.split {c c' : CacheVars β} {e : CacheCall}
    (h : CacheCallStep ops c e c') : ∃ es, Run (CacheStep ops) ⟨c, none⟩ es ⟨c', none⟩ := by
  cases h with
  | fill hfill => exact cacheFill_split hfill
  | read hsize => exact ⟨_, Run.single (.read hsize)⟩
  | seek pos => exact ⟨_, Run.single (.seek pos)⟩

theorem CacheInv.of_reachable (B : InOrderBackend ops type file offset) {c : CacheVars β}
    (h : Reachable (CacheCallStep ops) (CacheOpened type offset) c) :
    CacheInv type file offset c none := by
  obtain ⟨c0, es, h0, hrun⟩ := h
  obtain ⟨es', hrun'⟩ := Run.simulate (f := fun c => (⟨c, none⟩ : CacheSystem β))
    (fun _ _ _ hst => hst.split) hrun
  exact hrun'.invariant (I := fun s => CacheInv type file offset s.cache s.pending)
    (fun _ _ _ hinv hst => hinv.step B hst) h0.inv

/-- In every state that fills, reads and seeks reach, the ring is no longer than
its memory and holds the file, and whatever the reader copies next is the file
from `read_filepos` on. -/
theorem cache_integrity (B : InOrderBackend ops type file offset) {c : CacheVars β}
    (h : Reachable (CacheCallStep ops) (CacheOpened type offset) c) :
    c.maxFilepos - c.minFilepos ≤ c.bufferSize ∧
      (∀ p : Nat, c.minFilepos ≤ p → p < c.maxFilepos →
        file[p]? = some (c.buffer ((p - c.offset) % c.bufferSize).toNat)) ∧
      ∀ size interrupt bytes c', CacheCallStep ops c (.read size interrupt (.copied bytes)) c' →
        bytes <+: file.drop c.readFilepos.toNat ∧ 0 < bytes.length ∧
          c'.readFilepos = c.readFilepos + bytes.length := by
  have hinv := CacheInv.of_reachable B h
  refine ⟨hinv.room, hinv.holds, ?_⟩
  intro size interrupt bytes c' hst
  generalize he : CacheCall.read size interrupt (.copied bytes) = e at hst
  cases hst with
  | fill _ => cases he
  | seek _ => cases he
  | read hsize =>
    injection he with hsz hint hres
    subst hsz hint
    by_cases hin : c.maxFilepos ≤ c.readFilepos ∨ c.readFilepos < c.minFilepos
    · obtain ⟨r, e, heq, -, hno, -⟩ :=
        cacheReadStep_outside size interrupt hin
      rw [heq] at hres
      exact absurd hres.symm (hno bytes)
    · obtain ⟨n, hn, -, hmax, heq⟩ := hinv.readInside interrupt hsize hin
      rw [heq] at hres ⊢
      injection hres with hbytes
      subst hbytes
      have hread := hinv.read_nonneg
      have hlen : ((file.drop c.readFilepos.toNat).take n).length = n := by
        have hlast := hinv.holds (c.readFilepos.toNat + n - 1) (by omega) (by omega)
        have hlt := (List.getElem?_eq_some_iff.mp hlast).1
        rw [List.length_take, List.length_drop]
        omega
      exact ⟨List.take_prefix _ _, by omega, by rw [hlen]⟩

/-- A cache on a five byte file, after a fill that got three of them. -/
theorem cache_integrity_file :
    ∃ c : CacheVars Nat, c.maxFilepos = 3 ∧
      ∀ p : Nat, c.minFilepos ≤ p → p < c.maxFilepos →
        [10, 20, 30, 40, 50][p]? = some (c.buffer ((p - c.offset) % c.bufferSize).toNat) := by
  obtain ⟨c, hc, hmax⟩ : ∃ c, cacheFill (fileOps [10, 20, 30, 40, 50] 2) 1
      (streamEnableCache (fun _ => 0) 0 0 fileStream) = some (3, c) ∧ c.maxFilepos = 3 :=
    ⟨_, rfl, rfl⟩
  have hopened : CacheOpened .file id (streamEnableCache (fun _ => 0) 0 0 fileStream) :=
    ⟨_, _, _, _, rfl, ⟨rfl, rfl⟩, rfl, by decide⟩
  exact ⟨c, hmax, (cache_integrity (fileBackend [10, 20, 30, 40, 50] 2).toInOrderBackend
    ⟨_, _, hopened, Run.single (.fill hc)⟩).2.1⟩

end MPlayer
