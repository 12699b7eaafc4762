import MPlayer.Stream.Basic
import Mathlib.Algebra.GroupWithZero.Nat

/-!
# Writing to a file stream

`write_buffer` of the file stream hands a buffer to `write(2)` until all of it
is written.  The results of the calls are a parameter `write`, the `k`-th result
for the `k`-th call.  The model keeps each call with the range it is given, so
that `WriteCall.taken` are the bytes the call passed on.

The loop asks for all `len` bytes in every call, also when it has moved the
pointer, so that after a short first write the calls run past the buffer.
-/

namespace MPlayer

/-! ## The code -/

/-- A call of `write(2)` with its result. -/
structure WriteCall where
  buffer : Nat
  count : Nat
  result : Int
deriving DecidableEq, Repr

/-- The loop of `write_buffer` from its `k`-th call on.  The pointer is an address, and the
calls are in the order they are made. -/
def writeBufferLoop (write : Nat → Int) (len k wr buffer : Nat) : Int × List WriteCall :=
  if wr < len then
    if write k ≤ 0 then (-1, [⟨buffer, len, write k⟩])
    else
      let rest := writeBufferLoop write len (k + 1) (wr + (write k).toNat)
        (buffer + (write k).toNat)
      (rest.1, ⟨buffer, len, write k⟩ :: rest.2)
  else (len, [])
termination_by len - wr

/-- `write_buffer` of the file stream. -/
def writeBuffer (write : Nat → Int) (buffer len : Nat) : Int × List WriteCall :=
  writeBufferLoop write len 0 0 buffer

/-! ## What the calls pass on -/

/-- The `n` bytes of memory from `buffer` on. -/
def bytesFrom (mem : Nat → UInt8) (buffer n : Nat) : List UInt8 := (List.range' buffer n).map mem

/-- The bytes a call passed on. -/
def WriteCall.taken (mem : Nat → UInt8) (c : WriteCall) : List UInt8 :=
  bytesFrom mem c.buffer c.result.toNat

/-- A result that `write(2)` gives if it does not fail. -/
def WriteCall.Partial (c : WriteCall) : Prop := 1 ≤ c.result ∧ c.result ≤ c.count

/-- A call that is given no byte behind `limit`. -/
def WriteCall.Within (limit : Nat) (c : WriteCall) : Prop := c.buffer + c.count ≤ limit

/-! ## The loop -/

variable {len wr : Nat} {write : Nat → Int}

theorem writeBufferLoop_done (write : Nat → Int) (k buffer : Nat) (h : len ≤ wr) :
    writeBufferLoop write len k wr buffer = ((len : Int), []) := by
  rw [writeBufferLoop, if_neg (Nat.not_lt.mpr h)]

theorem writeBufferLoop_failed {k : Nat} (buffer : Nat) (h : wr < len) (hr : write k ≤ 0) :
    writeBufferLoop write len k wr buffer = (-1, [⟨buffer, len, write k⟩]) := by
  rw [writeBufferLoop, if_pos h, if_pos hr]

theorem writeBufferLoop_again {k : Nat} (buffer : Nat) (h : wr < len) (hr : 0 < write k) :
    writeBufferLoop write len k wr buffer =
      ((writeBufferLoop write len (k + 1) (wr + (write k).toNat) (buffer + (write k).toNat)).1,
        ⟨buffer, len, write k⟩ ::
          (writeBufferLoop write len (k + 1) (wr + (write k).toNat)
            (buffer + (write k).toNat)).2) := by
  rw [writeBufferLoop, if_pos h, if_neg (Int.not_le.mpr hr)]

/-! ## Short writes -/

/-- The buffer is passed on exactly, its length returned, and no call is given a byte
behind its end. -/
def WritesExactly (mem : Nat → UInt8) (buffer len : Nat) (r : Int × List WriteCall) : Prop :=
  r.2.flatMap (WriteCall.taken mem) = bytesFrom mem buffer len ∧ r.1 = len ∧
    ∀ c ∈ r.2, c.Within (buffer + len)

/-- After a short first write the second call is given a range that ends behind the buffer. -/
theorem writeBuffer_short (buffer : Nat) (h : 0 < write 0) (hlt : write 0 < len) :
    ∃ c ∈ (writeBuffer write buffer len).2, ¬ c.Within (buffer + len) := by
  have hmore : 0 + (write 0).toNat < len := by omega
  have hbehind : ¬ (⟨buffer + (write 0).toNat, len, write 1⟩ : WriteCall).Within
    (buffer + len) := by
    show ¬ buffer + (write 0).toNat + len ≤ buffer + len
    omega
  refine ⟨⟨buffer + (write 0).toNat, len, write 1⟩, ?_, hbehind⟩
  rw [writeBuffer, writeBufferLoop_again buffer (by omega) h]
  refine List.mem_cons_of_mem _ ?_
  by_cases hr : 0 < write 1
  · rw [writeBufferLoop_again _ hmore hr]
    exact List.mem_cons_self
  · rw [writeBufferLoop_failed _ hmore (Int.not_lt.mp hr)]
    exact List.mem_singleton_self _

/-- A file is written exactly if and only if there is nothing to write or the first call takes
all of it. -/
theorem write_buffer_exact_iff (mem : Nat → UInt8) (write : Nat → Int) (buffer len : Nat)
    (hresults : ∀ c ∈ (writeBuffer write buffer len).2, c.Partial) :
    WritesExactly mem buffer len (writeBuffer write buffer len) ↔ len = 0 ∨ write 0 = len := by
  constructor
  · rintro ⟨-, -, hwithin⟩
    obtain hlen | hlen := Nat.eq_zero_or_pos len
    · exact Or.inl hlen
    · by_cases hr : 0 < write 0
      · have hc := hresults ⟨buffer, len, write 0⟩ (by
          rw [writeBuffer, writeBufferLoop_again buffer hlen hr]
          exact List.mem_cons_self)
        refine Or.inr (Int.le_antisymm hc.2 (Int.not_lt.mp fun hlt => ?_))
        obtain ⟨c, hmem, hout⟩ := writeBuffer_short buffer hr hlt
        exact hout (hwithin c hmem)
      · have hc := hresults ⟨buffer, len, write 0⟩ (by
          rw [writeBuffer, writeBufferLoop_failed buffer hlen (Int.not_lt.mp hr)]
          exact List.mem_singleton_self _)
        exact absurd hc.1 hr
  · intro hall
    obtain hlen | hlen := Nat.eq_zero_or_pos len
    · rw [hlen, writeBuffer, writeBufferLoop_done write 0 buffer (Nat.le_refl 0)]
      exact ⟨rfl, rfl, fun c hc => absurd hc List.not_mem_nil⟩
    · have hfirst : write 0 = len := hall.resolve_left (Nat.ne_of_gt hlen)
      have hnat : (write 0).toNat = len := by rw [hfirst, Int.toNat_natCast]
      rw [writeBuffer, writeBufferLoop_again buffer hlen (by omega), hnat,
        writeBufferLoop_done write _ _ (by omega)]
      refine ⟨?_, rfl, ?_⟩
      · rw [List.flatMap_singleton, WriteCall.taken, hnat]
      · intro c hc
        rw [List.mem_singleton.mp hc]
        exact Nat.le_refl _

/-- Two bytes written one at a time: the second call is asked for two more. -/
theorem writeBuffer_one_by_one (buffer : Nat) :
    writeBuffer (fun _ => 1) buffer 2 = (2, [⟨buffer, 2, 1⟩, ⟨buffer + 1, 2, 1⟩]) := by
  rw [writeBuffer, writeBufferLoop_again buffer (by decide) (by decide),
    writeBufferLoop_again _ (by decide) (by decide),
    writeBufferLoop_done _ _ _ (by decide)]
  rfl

theorem writeBuffer_one_by_one_results (buffer : Nat) :
    ∀ c ∈ (writeBuffer (fun _ => 1) buffer 2).2, c.Partial := by
  rw [writeBuffer_one_by_one]
  intro c hc
  obtain rfl | hc := List.mem_cons.mp hc
  · exact ⟨Int.le_refl 1, (by decide : (1 : Int) ≤ 2)⟩
  · rw [List.mem_singleton.mp hc]
    exact ⟨Int.le_refl 1, (by decide : (1 : Int) ≤ 2)⟩

theorem write_buffer_exact_iff_one_by_one :
    WritesExactly (fun _ => 0) 16 2 (writeBuffer (fun _ => 1) 16 2) ↔ 2 = 0 ∨ (1 : Int) = 2 :=
  write_buffer_exact_iff (fun _ => 0) (fun _ => 1) 16 2 (writeBuffer_one_by_one_results 16)

/-- Short writes are not coped with. -/
theorem short_write_overruns :
    ¬ ∀ (mem : Nat → UInt8) (write : Nat → Int) (buffer len : Nat),
      (∀ c ∈ (writeBuffer write buffer len).2, c.Partial) →
        WritesExactly mem buffer len (writeBuffer write buffer len) := by
  intro h
  obtain ⟨-, -, hwithin⟩ := h (fun _ => 0) (fun _ => 1) 16 2 (writeBuffer_one_by_one_results 16)
  rw [writeBuffer_one_by_one] at hwithin
  have hsecond : (17 : Nat) + 2 ≤ 16 + 2 :=
    hwithin ⟨17, 2, 1⟩ (List.mem_cons_of_mem _ (List.mem_singleton_self _))
  exact absurd hsecond (by decide)

end MPlayer
