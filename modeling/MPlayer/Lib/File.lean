/-!
# A file that is read

A file opened for reading is its bytes, a position and the end-of-file mark.  The position may lie
behind the end.  `rest` are the bytes from the position on, and each operation is described by what
it does to them.
-/

namespace Lib

structure File where
  bytes : List UInt8
  pos : Nat
  eof : Bool

/-- The bytes that are still to be read. -/
def File.rest (f : File) : List UInt8 := f.bytes.drop f.pos

/-- `fopen`. -/
def File.openRead (bytes : List UInt8) : File := ⟨bytes, 0, false⟩

/-- `getc`. -/
def File.getc (f : File) : Option UInt8 × File :=
  match f.rest with
  | [] => (none, { f with eof := true })
  | b :: _ => (some b, { f with pos := f.pos + 1 })

/-- `fread` of one item of `n` bytes, or `none` where it does not return one. -/
def File.read (f : File) (n : Nat) : Option (List UInt8) × File :=
  if n = 0 then (none, f)
  else if n ≤ f.rest.length then (some (f.rest.take n), { f with pos := f.pos + n })
  else (none, { f with pos := f.pos + f.rest.length, eof := true })

/-- `fseek` to a position from the start. -/
def File.seek (f : File) (pos : Nat) : File := { f with pos := pos, eof := false }

/-! ## The rest of a file -/

/-- The file after some bytes have been read. -/
def File.skip (f : File) (n : Nat) : File := { f with pos := f.pos + n }

@[simp] theorem File.openRead_rest (bytes : List UInt8) : (File.openRead bytes).rest = bytes := rfl

@[simp] theorem File.skip_pos (f : File) (n : Nat) : (f.skip n).pos = f.pos + n := rfl

@[simp] theorem File.skip_skip (f : File) (m n : Nat) : (f.skip m).skip n = f.skip (m + n) := by
  simp [File.skip, Nat.add_assoc]

theorem File.skip_rest (f : File) (n : Nat) : (f.skip n).rest = f.rest.drop n := by
  simp [File.rest, File.skip, Nat.add_comm]

theorem File.getc_cons {f : File} {b : UInt8} {tail : List UInt8} (h : f.rest = b :: tail) :
    f.getc = (some b, f.skip 1) := by
  rw [File.getc, h]
  rfl

theorem File.read_append {f : File} (bytes : List UInt8) {tail : List UInt8}
    (h : f.rest = bytes ++ tail) (hne : bytes ≠ []) :
    f.read bytes.length = (some bytes, f.skip bytes.length) := by
  have hlen : bytes.length ≤ f.rest.length := by
    rw [h, List.length_append]
    exact Nat.le_add_right _ _
  rw [File.read, if_neg (Nat.ne_of_gt (List.length_pos_iff.mpr hne)), if_pos hlen, h,
    List.take_left]
  rfl

theorem File.read_short {f : File} {n : Nat} (h : f.rest.length < n) :
    (f.read n).1 = none ∧ (f.read n).2.eof = true := by
  rw [File.read, if_neg (by omega), if_neg (by omega)]
  exact ⟨rfl, rfl⟩

end Lib
